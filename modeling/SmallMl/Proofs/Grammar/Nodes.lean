import SmallMl.Proofs.Grammar.Extent

/-!
# What the nodes of a tree are made of

`NodeOf all e` says what the node `e` owes to the tokens `all`: it is what one rule of the grammar
makes, up to its range, which parentheses may have widened.  Besides the form of the node it names
the tokens from which the node has a literal, a name or a binder.

Every node of a program is such a node of the tokens of its text (`Program.treeOf_parse`).  So what
all nodes have in common is a case analysis of `NodeOf`, without another induction over the grammar.
-/

namespace SmallMl

/-- What an operator between operands is put into the tree as is an operation with a code. -/
theorem Operator.form_op_mem_all (o : Operator) : o.form.op ∈ BinaryOp.all := by
  cases o <;> decide

namespace Grammar

/-- `x; y` stands among the tokens, and `t` is the semicolon; the option is `y`. -/
inductive JoinedBy (all : List Token) (t : Token) (x : Expr) : Option Expr → Prop
  | intro {ts us : List Token} {y : Expr} : ts ++ (t :: us) <:+: all → Derives .expr ts x →
      t.kind = .semi → Derives .seq us y → JoinedBy all t x (some y)

/-- `let b = x` or `let b = x in y` stands among the tokens; the option is `y`. -/
inductive BoundBy (all : List Token) (b : Binder) (x : Expr) : Option Expr → Prop
  | last {hs ts : List Token} : hs ++ ts <:+: all → LetHead hs b → Derives .expr ts x →
      BoundBy all b x none
  | next {hs ts us : List Token} {n : Token} {y : Expr} : hs ++ (ts ++ (n :: us)) <:+: all →
      LetHead hs b → Derives .expr ts x → n.kind = .inWord → Derives .seq us y →
      BoundBy all b x (some y)

/-- The node is what a rule of the grammar makes of some of the tokens, up to its range. -/
inductive NodeOf (all : List Token) : Expr → Prop
  | bool (r : Range) (b : Bool) : NodeOf all (.bool r b)
  | int {t : Token} {n : Nat} (r : Range) : t ∈ all → t.kind = .int n → NodeOf all (.int r n)
  | float {t : Token} {v : Binary64} (r : Range) : t ∈ all → t.kind = .float v →
      NodeOf all (.float r v)
  | unit (r : Range) : NodeOf all (.unit r)
  | var {t : Token} (r : Range) : t ∈ all → t.kind = .ident → NodeOf all (.var r t.name)
  | make {t : Token} (r : Range) : t ∈ all → t.kind = .arrayMake → NodeOf all (.var r arrayMake)
  | unary {op : UnaryOp} (r : Range) (x : Expr) : op ∈ UnaryOp.all → NodeOf all (.unary r op x)
  | binary {op : BinaryOp} (r : Range) (x y : Expr) : op ∈ BinaryOp.all →
      NodeOf all (.binary r op x y)
  | cond (r : Range) (c y : Expr) (i : Range) : NodeOf all (.cond r c y none i none)
  | condElse (r : Range) (c y n : Expr) (i e : Range) :
      NodeOf all (.cond r c y (some n) i (some e))
  | bind {b : Binder} {x : Expr} {n : Option Expr} (r : Range) : BoundBy all b x n →
      NodeOf all (.bind r b x n)
  | join {t : Token} {x : Expr} {n : Option Expr} (r : Range) : JoinedBy all t x n →
      NodeOf all (.bind r ⟨discarded, some (.basic .unit), t.range⟩ x n)
  | bindRec {hs : List Token} {f : Binder} {ps : List Binder} (r : Range) (x : Expr)
      (n : Option Expr) : hs ⊆ all → RecHead hs f ps → NodeOf all (.bindRec r f ps x n)
  | get (r : Range) (a i : Expr) : NodeOf all (.get r a i)
  | put (r : Range) (a i v : Expr) : NodeOf all (.put r a i v)
  | call {as : List Expr} (r : Range) (f : Expr) : as ≠ [] → NodeOf all (.call r f as)

/-- The node and all nodes in it are built from the tokens. -/
inductive TreeOf (all : List Token) : Expr → Prop
  | intro {e : Expr} : NodeOf all e → (∀ c ∈ e.children, TreeOf all c) → TreeOf all e

variable {all ts : List Token} {e x y : Expr}

theorem mem_all_of_prefixOp? {k : Kind} {op : UnaryOp} (h : prefixOp? k = some op) :
    op ∈ UnaryOp.all := by
  unfold prefixOp? at h
  split at h <;> cases h <;> decide

theorem NodeOf.isMissing_eq (h : NodeOf all e) : e.isMissing = false := by
  cases h <;> rfl

theorem NodeOf.of_leaf? {t : Token} (ht : t ∈ all) (h : t.leaf? = some x) : NodeOf all x := by
  unfold Token.leaf? at h
  split at h <;> cases h
  · exact .bool _ _
  · exact .int _ ht ‹_›
  · exact .float _ ht ‹_›
  · exact .var _ ht ‹_›

/-- Parentheses around an expression change its range only. -/
theorem NodeOf.withRange (h : NodeOf all e) (r : Range) : NodeOf all (e.withRange r) := by
  cases h with
  | bool => exact .bool r _
  | int _ ht hk => exact .int r ht hk
  | float _ ht hk => exact .float r ht hk
  | unit => exact .unit r
  | var _ ht hk => exact .var r ht hk
  | make _ ht hk => exact .make r ht hk
  | unary _ _ ho => exact .unary r _ ho
  | binary _ _ _ ho => exact .binary r _ _ ho
  | cond => exact .cond r _ _ _
  | condElse => exact .condElse r _ _ _ _ _
  | bind _ hb => exact .bind r hb
  | join _ hj => exact .join r hj
  | bindRec _ _ _ hs hh => exact .bindRec r _ _ hs hh
  | get => exact .get r _ _
  | put => exact .put r _ _ _
  | call _ _ ha => exact .call r _ ha

namespace TreeOf

theorem root (h : TreeOf all e) : NodeOf all e := by
  cases h with
  | intro hb _ => exact hb

theorem child (h : TreeOf all e) : ∀ c ∈ e.children, TreeOf all c := by
  cases h with
  | intro _ hc => exact hc

theorem isMissing_eq (h : TreeOf all e) : e.isMissing = false := h.root.isMissing_eq

theorem withRange (h : TreeOf all e) (r : Range) : TreeOf all (e.withRange r) :=
  .intro (h.root.withRange r) (by simpa using h.child)

/-- **What a node owes to the tokens and to its parts being there holds of all nodes.** -/
theorem everywhere {P : Node → Prop}
    (hP : ∀ e, NodeOf all e → (∀ c ∈ e.children, c.isMissing = false) → P (.expr e))
    (h : TreeOf all e) : e.Everywhere P := by
  induction h with
  | @intro e hb hc ih =>
    exact (Expr.everywhere_iff hb.isMissing_eq).2 ⟨hP e hb fun c hm => (hc c hm).isMissing_eq, ih⟩

theorem of_mem (h : TreeOf all e) : e.Everywhere fun
    | .program _ => True
    | .expr x => TreeOf all x := by
  induction h with
  | @intro e hb hc ih => exact (Expr.everywhere_iff hb.isMissing_eq).2 ⟨.intro hb hc, ih⟩

theorem combine (op : Operator) (hx : TreeOf all x) (hy : TreeOf all y) :
    TreeOf all (op.combine x y) := by
  have hb : ∀ r, TreeOf all
      (if op.form.swap then Expr.binary r op.form.op y x else Expr.binary r op.form.op x y) := by
    intro r
    split <;> exact .intro (.binary r _ _ op.form_op_mem_all) (by simp [Expr.children, hx, hy])
  unfold Operator.combine
  dsimp only
  split
  · exact .intro (.unary _ _ (by decide)) (List.forall_mem_singleton.2 (hb _))
  · exact hb _

end TreeOf

/-- **All nodes of a phrase are built from its tokens.** -/
theorem Derives.treeOf {c : Category} (h : Derives c ts x) : ts <:+: all → TreeOf all x := by
  induction h with
  | @leaf t x ht =>
    intro hi
    exact .intro (.of_leaf? (hi.subset (by simp)) ht) (by simp [(leaf?_parts ht).1])
  | unit _ _ => exact fun _ => .intro (.unit _) nofun
  | calleeMake ht => exact fun hi => .intro (.make _ (hi.subset (by simp)) ht) nofun
  | @paren a b ts x _ _ _ ih =>
    intro hi
    exact (ih (List.IsInfix.trans ⟨[a], [b], rfl⟩ hi)).withRange _
  | calleeAtom _ ih | arrayAtom _ ih | operandCallee _ ih | operandCall _ ih | operandArray _ ih
    | exprOperand _ ih | seqExpr _ ih => exact ih
  | @firstArgument ts us f a _ _ ihf iha =>
    intro hi
    have hf := ihf (List.IsInfix.trans ⟨[], us, rfl⟩ hi)
    have ha := iha (List.IsInfix.trans ⟨ts, [], by simp⟩ hi)
    exact .intro (.call _ f (by simp)) (by simp [Expr.children, hf, ha])
  | @nextArgument ts us r f a as _ _ ihc iha =>
    intro hi
    have hc := (ihc (List.IsInfix.trans ⟨[], us, rfl⟩ hi)).child
    have ha := iha (List.IsInfix.trans ⟨ts, [], by simp⟩ hi)
    refine .intro (.call _ f (by simp)) ?_
    rw [Expr.children, ← List.cons_append, List.forall_mem_append]
    exact ⟨hc, by simp [ha]⟩
  | @get ts us d o c a i _ _ _ _ _ iha ihi =>
    intro hi
    have ha := iha (List.IsInfix.trans ⟨[], d :: o :: (us ++ [c]), rfl⟩ hi)
    have hx := ihi (List.IsInfix.trans ⟨ts ++ [d, o], [c], by simp⟩ hi)
    exact .intro (.get _ a i) (by simp [Expr.children, ha, hx])
  | @put ts us vs d o c w a i v _ _ _ _ _ _ _ iha ihi ihv =>
    intro hi
    have ha := iha (List.IsInfix.trans ⟨[], _, rfl⟩ hi)
    have hx := ihi (List.IsInfix.trans ⟨ts ++ [d, o], c :: w :: vs, by simp⟩ hi)
    have hv := ihv (List.IsInfix.trans ⟨ts ++ (d :: o :: (us ++ [c, w])), [], by simp⟩ hi)
    exact .intro (.put _ a i v) (by simp [Expr.children, ha, hx, hv])
  | @prefixed t ts op x ht _ ih =>
    intro hi
    have hx := ih (List.IsInfix.trans ⟨[t], [], by simp⟩ hi)
    exact .intro (.unary _ x (mem_all_of_prefixOp? ht)) (by simp [Expr.children, hx])
  | @cond i h cs ys c y _ _ _ _ ihc ihy =>
    intro hi
    have hc := ihc (List.IsInfix.trans ⟨[i], h :: ys, rfl⟩ hi)
    have hy := ihy (List.IsInfix.trans ⟨i :: (cs ++ [h]), [], by simp⟩ hi)
    exact .intro (.cond _ c y _) (by simp [Expr.children, hc, hy])
  | @condElse i h e cs ys ns c y n _ _ _ _ _ _ ihc ihy ihn =>
    intro hi
    have hc := ihc (List.IsInfix.trans ⟨[i], _, rfl⟩ hi)
    have hy := ihy (List.IsInfix.trans ⟨i :: (cs ++ [h]), e :: ns, by simp⟩ hi)
    have hn := ihn (List.IsInfix.trans ⟨i :: (cs ++ (h :: (ys ++ [e]))), [], by simp⟩ hi)
    exact .intro (.condElse _ c y n _ _) (by simp [Expr.children, hc, hy, hn])
  | @bind hs ts b x hh hd ih =>
    intro hi
    have hx := ih (List.IsInfix.trans ⟨hs, [], by simp⟩ hi)
    exact .intro (.bind _ (.last hi hh hd)) (by simp [Expr.children, hx])
  | @bindIn hs ts us n b x y hh hd hn hd' ihx ihy =>
    intro hi
    have hx := ihx (List.IsInfix.trans ⟨hs, n :: us, by simp⟩ hi)
    have hy := ihy (List.IsInfix.trans ⟨hs ++ (ts ++ [n]), [], by simp⟩ hi)
    exact .intro (.bind _ (.next hi hh hd hn hd')) (by simp [Expr.children, hx, hy])
  | @bindRec hs ts f ps x hh _ ih =>
    intro hi
    have hs' := List.Subset.trans (List.subset_append_left hs ts) hi.subset
    have hx := ih (List.IsInfix.trans ⟨hs, [], by simp⟩ hi)
    exact .intro (.bindRec _ x none hs' hh) (by simp [Expr.children, hx])
  | @bindRecIn hs ts us n f ps x y hh _ _ _ ihx ihy =>
    intro hi
    have hs' := List.Subset.trans (List.subset_append_left hs _) hi.subset
    have hx := ihx (List.IsInfix.trans ⟨hs, n :: us, by simp⟩ hi)
    have hy := ihy (List.IsInfix.trans ⟨hs ++ (ts ++ [n]), [], by simp⟩ hi)
    exact .intro (.bindRec _ x (some y) hs' hh) (by simp [Expr.children, hx, hy])
  | @binary ts us t op x y _ _ _ ihx ihy =>
    intro hi
    exact .combine op (ihx (List.IsInfix.trans ⟨[], t :: us, rfl⟩ hi))
      (ihy (List.IsInfix.trans ⟨ts ++ [t], [], by simp⟩ hi))
  | @seqTrailing ts t x _ _ ih =>
    intro hi
    exact ih (List.IsInfix.trans ⟨[], [t], rfl⟩ hi)
  | @seqCons ts us t x y hd ht hd' ihx ihy =>
    intro hi
    have hx := ihx (List.IsInfix.trans ⟨[], t :: us, rfl⟩ hi)
    have hy := ihy (List.IsInfix.trans ⟨ts ++ [t], [], by simp⟩ hi)
    exact .intro (.join _ (.intro hi hd ht hd')) (by simp [Expr.children, hx, hy])

theorem ItemsOf.treeOf {xs : List Expr} (h : ItemsOf ts xs) : ts <:+: all →
    ∀ x ∈ xs, TreeOf all x := by
  induction h with
  | nil => simp
  | @semi ts t xs _ _ ih =>
    intro hi
    exact ih (List.IsInfix.trans ⟨[], [t], rfl⟩ hi)
  | @item ts us x xs _ hx ih =>
    intro hi
    refine List.forall_mem_cons.2 ⟨?_, ih (List.IsInfix.trans ⟨[], us, rfl⟩ hi)⟩
    exact hx.treeOf (List.IsInfix.trans ⟨ts, [], by simp⟩ hi)

end Grammar

open Grammar

namespace Program

/-- **All nodes of a program are built from the tokens of its text.** -/
theorem treeOf_parse {settings : Settings} {text : List Char} {p : Program}
    (h : (parse settings text).result = .ok p) :
    ∃ src, (Stream.ofText settings text).Emits (Stream.ofText settings text).tokens src ∧
      ∀ x ∈ p.items, TreeOf (Stream.ofText settings text).tokens x := by
  obtain ⟨ts, src, e, items, hem, hn, he, hi, rfl⟩ := itemsOf_parse h
  rw [Stream.tokens_eq hem hn he, items_program]
  exact ⟨src, hem, fun x hx => hi.treeOf List.infix_rfl x (List.mem_reverse.1 hx)⟩

theorem treeOf_of_mem {ts : List Token} {p : Program} (hi : ∀ x ∈ p.items, TreeOf ts x) {e : Expr}
    (he : .expr e ∈ (Node.program p).preorder Node.any) : TreeOf ts e := by
  rw [Node.preorder_program, List.mem_cons] at he
  obtain ⟨x, hx, hex⟩ := List.mem_flatMap.1 (he.resolve_left (by simp))
  exact (hi x hx).of_mem _ hex

/-- A property that the program has, and every node that is built from the tokens. -/
theorem forall_preorder {P : Node → Prop} {ts : List Token} {p : Program}
    (hi : ∀ x ∈ p.items, TreeOf ts x) (hp : P (.program p))
    (hP : ∀ e, NodeOf ts e → (∀ c ∈ e.children, c.isMissing = false) → P (.expr e)) :
    ∀ n ∈ (Node.program p).preorder Node.any, P n := by
  rw [Node.preorder_program, List.forall_mem_cons]
  refine ⟨hp, fun n hn => ?_⟩
  obtain ⟨x, hx, hnx⟩ := List.mem_flatMap.1 hn
  exact (hi x hx).everywhere hP n hnx

end Program

end SmallMl
