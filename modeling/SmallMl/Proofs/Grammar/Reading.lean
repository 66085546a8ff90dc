import SmallMl.Proofs.Grammar.Derivation
import SmallMl.Proofs.Grammar.Run
import SmallMl.Proofs.Grammar.Settle

/-!
# What a state has read

`Reads ts s` says that the tokens `ts` are what the state `s` has read: the items at the top level,
the frames of the stack and the focus each account for a stretch of `ts`, and the stretches follow
one another without a gap.  Every step adds its token at the end (`State.step_reads`), so a program
that is read is derived from all the tokens of its text, each used once (`Program.itemsOf_parse`).

The invariant also has to say where sequences are.  A `sequel` stands on a frame that waits for a
sequence, and so does the focus behind a semicolon; otherwise an operator could take a whole
sequence for its operand.
-/

namespace SmallMl

/-- What a token adds to the tokens that have been read: the end token adds nothing. -/
def Token.used (t : Token) : List Token := if t.isEof then [] else [t]

theorem Token.used_of_not_eof {t : Token} (h : t.isEof = false) : t.used = [t] := by
  rw [used, h]
  rfl

theorem Token.used_of_kind {t : Token} {k : Kind} (h : t.kind = k) (hk : k.isEof = false) :
    t.used = [t] := by
  subst h
  exact used_of_not_eof hk

theorem Token.used_of_ne_eof {t : Token} (h : t.kind ≠ .eof) : t.used = [t] := by
  refine used_of_not_eof ?_
  cases he : t.isEof with
  | false => rfl
  | true => exact absurd (Grammar.kind_of_isEof he) h

namespace Grammar

/-! ### Parts of constructs -/

inductive CallOf : List Token → Expr → List Expr → Prop
  | callee {ts : List Token} {f : Expr} : Derives .callee ts f → CallOf ts f []
  | arguments {ts : List Token} {f a : Expr} {as : List Expr} : f.range.start = startOf ts →
      Derives .call ts (.call (spanOf ts) f (a :: as).reverse) → CallOf ts f (a :: as)

inductive SlotOf : List Token → Slot → Prop
  | operand : SlotOf [] .operand
  | argument {ts : List Token} {f : Expr} {as : List Expr} : CallOf ts f as →
      SlotOf ts (.argument f as)

/-- `let rec fn params` -/
inductive FunctionOf : List Token → FunctionHead → Prop
  | intro {l r n : Token} {ts : List Token} {ps : List Binder} : l.kind = .letWord →
      r.kind = .recWord → n.kind = .ident → ParamsOf ts ps.reverse →
      FunctionOf (l :: r :: n :: ts) ⟨l.range.start, n.name, n.range, ps⟩

inductive HeaderOf : List Token → Header → Prop
  | plain {l : Token} : l.kind = .letWord → HeaderOf [l] (.plain l.range.start)
  | function {ts : List Token} {h : FunctionHead} : FunctionOf ts h → HeaderOf ts (.function h)

inductive FrameOf : List Token → Frame → Prop
  | right {ts : List Token} {t : Token} {x : Expr} {op : Operator} : Derives .expr ts x →
      t.kind = .operator op → FrameOf (ts ++ [t]) (.right x op)
  | operand {t : Token} {op : UnaryOp} : prefixOp? t.kind = some op →
      FrameOf [t] (.operand op t.range.start)
  | paren {ts : List Token} {t : Token} {slot : Slot} : SlotOf ts slot → t.kind = .lparen →
      FrameOf (ts ++ [t]) (.paren t.range.start slot)
  | index {ts : List Token} {d o : Token} {a : Expr} : Derives .array ts a → d.kind = .dot →
      o.kind = .lparen → FrameOf (ts ++ [d, o]) (.index a o.range.start)
  | value {ts us : List Token} {d o c w : Token} {a i : Expr} : Derives .array ts a →
      d.kind = .dot → o.kind = .lparen → Derives .expr us i → c.kind = .rparen →
      w.kind = .leftArrow → FrameOf (ts ++ (d :: o :: (us ++ [c, w]))) (.value a i)
  | condition {t : Token} : t.kind = .ifWord → FrameOf [t] (.condition t.range)
  | consequent {i h : Token} {cs : List Token} {c : Expr} : i.kind = .ifWord →
      Derives .expr cs c → h.kind = .thenWord → FrameOf (i :: (cs ++ [h])) (.consequent i.range c)
  | alternative {i h e : Token} {cs ys : List Token} {c y : Expr} : i.kind = .ifWord →
      Derives .expr cs c → h.kind = .thenWord → Derives .expr ys y → e.kind = .elseWord →
      FrameOf (i :: (cs ++ (h :: (ys ++ [e])))) (.alternative i.range c y e.range)
  | letBody {hs : List Token} {b : Binder} : LetHead hs b → FrameOf hs (.letBody (startOf hs) b)
  | letNext {hs ts : List Token} {n : Token} {b : Binder} {x : Expr} : LetHead hs b →
      Derives .expr ts x → n.kind = .inWord →
      FrameOf (hs ++ (ts ++ [n])) (.letNext (startOf hs) b x)
  | recBody {hs : List Token} {f : Binder} {ps : List Binder} : RecHead hs f ps →
      FrameOf hs (.recBody (startOf hs) f ps)
  | recNext {hs ts : List Token} {n : Token} {f : Binder} {ps : List Binder} {x : Expr} :
      RecHead hs f ps → Derives .expr ts x → n.kind = .inWord →
      FrameOf (hs ++ (ts ++ [n])) (.recNext (startOf hs) f ps x)
  | sequel {ts : List Token} {t : Token} {x : Expr} : Derives .expr ts x → t.kind = .semi →
      FrameOf (ts ++ [t]) (.sequel x t.range)

/-- The top of the stack waits for a sequence. -/
def onSequence : List Frame → Bool
  | [] => false
  | f :: _ => f.isSequence

/-- The frames of the stack have read the tokens, the bottom of the stack the first of them. -/
inductive StackOf : List Token → List Frame → Prop
  | nil : StackOf [] []
  | cons {ts us : List Token} {f : Frame} {fs : List Frame} : StackOf ts fs → FrameOf us f →
      (f.isSequel = true → onSequence fs = true) → StackOf (ts ++ us) (f :: fs)

inductive FocusOf : List Token → Focus → Prop
  | start : FocusOf [] .start
  | opened {ts : List Token} {t : Token} {slot : Slot} : SlotOf ts slot → t.kind = .lparen →
      FocusOf (ts ++ [t]) (.opened t.range.start slot)
  | atom {ts : List Token} {x : Expr} : Derives .atom ts x → FocusOf ts (.atom x)
  | call {ts : List Token} {f : Expr} {as : List Expr} : CallOf ts f as → FocusOf ts (.call f as)
  | dot {ts : List Token} {d : Token} {a : Expr} : Derives .array ts a → d.kind = .dot →
      FocusOf (ts ++ [d]) (.dot a)
  | indexed {ts us : List Token} {d o c : Token} {a i : Expr} : Derives .array ts a →
      d.kind = .dot → o.kind = .lparen → Derives .expr us i → c.kind = .rparen →
      FocusOf (ts ++ (d :: o :: (us ++ [c]))) (.indexed a i)
  | semi {ts : List Token} {t : Token} {x : Expr} : Derives .expr ts x → t.kind = .semi →
      FocusOf (ts ++ [t]) (.semi x t.range)
  | letWord {l : Token} : l.kind = .letWord → FocusOf [l] (.letWord l.range.start)
  | equals {l : Token} {ts : List Token} {b : Binder} : l.kind = .letWord → BinderOf ts b →
      FocusOf (l :: ts) (.equals l.range.start b)
  | recWord {l r : Token} : l.kind = .letWord → r.kind = .recWord →
      FocusOf [l, r] (.recWord l.range.start)
  | params {ts : List Token} {h : FunctionHead} : FunctionOf ts h → FocusOf ts (.params h)
  | resultColon {ts : List Token} {c : Token} {h : FunctionHead} : FunctionOf ts h →
      h.params ≠ [] → c.kind = .colon → FocusOf (ts ++ [c]) (.resultColon h)
  | resultType {ts us : List Token} {c : Token} {h : FunctionHead} {ty : Ty} : FunctionOf ts h →
      h.params ≠ [] → c.kind = .colon → TypeOf us ty → FocusOf (ts ++ (c :: us)) (.resultType h ty)
  | binderOpened {ts : List Token} {a : Token} {h : Header} : HeaderOf ts h → a.kind = .lparen →
      FocusOf (ts ++ [a]) (.binderOpened h a.range.start)
  | binderName {ts : List Token} {a n : Token} {h : Header} : HeaderOf ts h → a.kind = .lparen →
      n.kind = .ident → FocusOf (ts ++ [a, n]) (.binderName h a.range.start n.name)
  | binderColon {ts : List Token} {a n c : Token} {h : Header} : HeaderOf ts h →
      a.kind = .lparen → n.kind = .ident → c.kind = .colon →
      FocusOf (ts ++ [a, n, c]) (.binderColon h a.range.start n.name)
  | binderType {ts us : List Token} {a n c : Token} {h : Header} {ty : Ty} : HeaderOf ts h →
      a.kind = .lparen → n.kind = .ident → c.kind = .colon → TypeOf us ty →
      FocusOf (ts ++ (a :: n :: c :: us)) (.binderType h a.range.start n.name ty)

/-- **The state has read the tokens.** -/
inductive Reads : List Token → State → Prop
  | top {ts : List Token} {items : List Expr} : ItemsOf ts items →
      Reads ts ⟨items, [], .top, endOf ts⟩
  | inside {is ks fs : List Token} {items : List Expr} {stack : List Frame} {focus : Focus} :
      ItemsOf is items → StackOf ks stack → FocusOf fs focus →
      (∀ x r, focus = .semi x r → onSequence stack = true) →
      Reads (is ++ (ks ++ fs)) ⟨items, stack, focus, endOf (is ++ (ks ++ fs))⟩

theorem reads_initial : Reads [] .initial := .top .nil

theorem Reads.use {is ks fs ts : List Token} {t : Token} {items : List Expr} {stack : List Frame}
    {focus : Focus} (hi : ItemsOf is items) (hk : StackOf ks stack) (hf : FocusOf fs focus)
    (hs : ∀ x r, focus = .semi x r → onSequence stack = true)
    (he : is ++ (ks ++ fs) = ts ++ [t]) : Reads (ts ++ [t]) (.use items stack t focus) := by
  have hr := Reads.inside hi hk hf hs
  rw [he, endOf_append (by simp), endOf_singleton] at hr
  exact hr

/-! ### Calls, slots and headers -/

namespace CallOf

variable {ts us : List Token} {f a : Expr} {as : List Expr}

theorem ne_nil (h : CallOf ts f as) : ts ≠ [] := by
  cases h with
  | callee hf => exact hf.ne_nil
  | arguments _ hc => exact hc.ne_nil

theorem start_eq (h : CallOf ts f as) : f.range.start = startOf ts := by
  cases h with
  | callee hf => exact hf.start_eq
  | arguments hs _ => exact hs

theorem snoc (h : CallOf ts f as) (ha : Derives .atom us a) : CallOf (ts ++ us) f (a :: as) := by
  have hs : f.range.start = startOf (ts ++ us) := by
    rw [startOf_append h.ne_nil, h.start_eq]
  cases h with
  | callee hf => exact .arguments hs (.firstArgument hf ha)
  | arguments _ hc =>
    refine .arguments hs ?_
    rw [List.reverse_cons]
    exact .nextArgument hc ha

theorem operand (h : CallOf ts f as) {s : State} (hl : s.last = endOf ts) :
    Derives .operand ts (s.callOf f as) := by
  have hs := h.start_eq
  cases h with
  | callee hf => exact .operandCallee hf
  | arguments _ hc =>
    have he : s.since f.range.start = spanOf ts := by
      rw [State.since, hl, hs]
      rfl
    simp only [State.callOf, List.isEmpty_cons, Bool.false_eq_true, if_false]
    rw [he]
    exact .operandCall hc

end CallOf

theorem SlotOf.fill {ts us : List Token} {slot : Slot} {x : Expr} (h : SlotOf ts slot)
    (hx : Derives .atom us x) : FocusOf (ts ++ us) (slot.fill x) := by
  cases h with
  | operand => exact .atom hx
  | argument hc => exact .call (hc.snoc hx)

theorem fill_ne_semi {slot : Slot} {y : Expr} (x : Expr) (r : Range) :
    slot.fill y ≠ .semi x r := by
  cases slot <;> simp [Slot.fill]

theorem FunctionOf.addParam {ts us : List Token} {h : FunctionHead} {b : Binder}
    (hf : FunctionOf ts h) (hb : BinderOf us b) : FunctionOf (ts ++ us) (h.addParam b) := by
  cases hf with
  | intro hl hr hn hp =>
    refine .intro hl hr hn ?_
    rw [List.reverse_cons]
    exact .snoc hp hb

theorem FunctionOf.start_eq {ts : List Token} {h : FunctionHead} (hf : FunctionOf ts h)
    (us : List Token) : h.start = startOf (ts ++ us) := by
  cases hf
  rfl

theorem FunctionOf.recHead {ts us : List Token} {e : Token} {h : FunctionHead} {ty : Option Ty}
    (hf : FunctionOf ts h) (hp : h.params ≠ []) (hr : ResultOf us ty)
    (he : e.kind = .operator .equal) : FrameOf (ts ++ (us ++ [e])) (h.frame ty) := by
  rw [FunctionHead.frame, hf.start_eq (us ++ [e])]
  cases hf with
  | intro hl hr' hn hps => exact .recBody (.intro hl hr' hn hps (by simpa using hp) hr he)

theorem HeaderOf.bound {ts us : List Token} {h : Header} {b : Binder} (hh : HeaderOf ts h)
    (hb : BinderOf us b) : FocusOf (ts ++ us) (h.bound b) := by
  cases hh with
  | plain hl => exact .equals hl hb
  | function hf => exact .params (hf.addParam hb)

/-! ### Tokens that start something -/

theorem leaf?_isEof {t : Token} {x : Expr} (h : t.leaf? = some x) : t.kind.isEof = false := by
  unfold Token.leaf? at h
  split at h
  case h_5 => cases h
  all_goals next hk => rw [hk]; rfl

theorem prefixOp?_of_kind {t : Token} {k : Kind} {op : UnaryOp} (h : t.kind = k)
    (hk : prefixOp? k = some op) : prefixOp? t.kind = some op := h ▸ hk

theorem begin_reads {is ks : List Token} {t : Token} {items : List Expr} {stack : List Frame}
    {s' : State} (hi : ItemsOf is items) (hk : StackOf ks stack)
    (h : begin items stack t = .ok s') : Reads (is ++ ks ++ t.used) s' := by
  -- with the focus that the token makes, and with the frame that it opens
  have focus : ∀ {k : Kind} {focus : Focus}, t.kind = k → k.isEof = false → FocusOf [t] focus →
      (∀ x r, focus ≠ .semi x r) → Reads (is ++ ks ++ t.used) (.use items stack t focus) := by
    intro k focus hk' he hf hs
    rw [Token.used_of_kind hk' he]
    exact .use hi hk hf (fun x r h => absurd h (hs x r)) (by simp)
  have frame : ∀ {k : Kind} {f : Frame}, t.kind = k → k.isEof = false → FrameOf [t] f →
      f.isSequel = false → Reads (is ++ ks ++ t.used) (.use items (f :: stack) t .start) := by
    intro k f hk' he hf hs
    rw [Token.used_of_kind hk' he]
    exact .use hi (.cons hk hf (by simp [hs])) .start (fun x r h => by cases h) (by simp)
  unfold begin at h
  split at h
  · next x hx =>
    cases h
    exact focus rfl (leaf?_isEof hx) (.atom (.leaf hx)) (by simp)
  split at h
  · next hk' => cases h; exact focus hk' rfl (.opened .operand hk') (by simp)
  · next hk' => cases h; exact frame hk' rfl (.operand (prefixOp?_of_kind hk' rfl)) rfl
  · next hk' => cases h; exact frame hk' rfl (.operand (prefixOp?_of_kind hk' rfl)) rfl
  · next hk' => cases h; exact frame hk' rfl (.operand (prefixOp?_of_kind hk' rfl)) rfl
  · next hk' => cases h; exact frame hk' rfl (.condition hk') rfl
  · next hk' => cases h; exact focus hk' rfl (.letWord hk') (by simp)
  · next hk' => cases h; exact focus hk' rfl (.call (.callee (.calleeMake hk'))) (by simp)
  · cases h

theorem top_reads {is : List Token} {t : Token} {items : List Expr} {s' : State}
    (hi : ItemsOf is items) (h : top items (endOf is) t = .ok s') : Reads (is ++ t.used) s' := by
  unfold top at h
  split at h
  · next hk =>
    cases h
    rw [Token.used, if_pos (by rw [Token.isEof, hk]; rfl), List.append_nil]
    exact .top hi
  · next hk =>
    cases h
    rw [Token.used_of_kind hk rfl]
    have hr := Reads.top (.semi hi hk)
    rwa [endOf_append (by simp), endOf_singleton] at hr
  · have hr := begin_reads hi .nil h
    rwa [List.append_nil] at hr

/-! ### Handing an expression down the stack -/

def Frame.category (f : Frame) : Category := if f.isSequence then .seq else .expr

/-- What `settle` is given at a stack: an expression, or a sequence for a frame that waits for one.
No operator stands behind a sequence. -/
inductive Handed (t : Token) (stack : List Frame) : Bool → List Token → Expr → Prop
  | expr {xs : List Token} {x : Expr} : Derives .expr xs x → Handed t stack false xs x
  | seq {xs : List Token} {x : Expr} : Derives .seq xs x → onSequence stack = true →
      t.kind.operator? = none → Handed t stack true xs x

namespace Handed

variable {t : Token} {f : Frame} {stack : List Frame} {whole : Bool} {xs : List Token} {x : Expr}

theorem derives (h : Handed t (f :: stack) whole xs x) : Derives f.category xs x := by
  rw [Frame.category]
  cases h with
  | expr hx =>
    split
    · exact .seqExpr hx
    · exact hx
  | seq hx ho _ =>
    have hs : f.isSequence = true := ho
    rw [if_pos hs]
    exact hx

theorem expr_of_operator {op : Operator} (h : Handed t stack whole xs x)
    (ho : t.kind.operator? = some op) : Derives .expr xs x := by
  cases h with
  | expr hx => exact hx
  | seq _ _ hn =>
    rw [hn] at ho
    cases ho

end Handed

theorem kind_of_operator? {t : Token} {op : Operator} (h : t.kind.operator? = some op) :
    t.kind = .operator op := by
  unfold Kind.operator? at h
  split at h
  · next hk =>
    cases h
    exact hk
  · cases h

theorem binding?_eq_some {n : Nat} {t : Token} {op : Operator} (h : binding? n t = some op) :
    t.kind.operator? = some op := by
  rw [binding?, Option.filter_eq_some_iff] at h
  exact h.1

theorem operator?_of_binding? {t : Token} (h : binding? 0 t = none) : t.kind.operator? = none := by
  rw [binding?, Option.filter_eq_none_iff] at h
  cases ho : t.kind.operator? with
  | none => rfl
  | some op => exact absurd (decide_eq_true (Nat.zero_le _)) (h op ho)

/-- A completed frame is a phrase; a completed sequel is the rest of a sequence. -/
theorem FrameOf.closed {us xs : List Token} {f : Frame} {x y : Expr} {last : Location}
    (hf : FrameOf us f) (hx : Derives f.category xs x) (hl : last = endOf xs)
    (h : f.closed? last x = some y) :
    Derives (if f.isSequel then .seq else .expr) (us ++ xs) y := by
  subst hl
  -- the range of a frame that starts where its tokens start
  have span : ∀ {start : Location}, start = startOf us → us ≠ [] →
      (⟨start, endOf xs⟩ : Range) = spanOf (us ++ xs) := by
    intro start hs hn
    rw [hs, spanOf, startOf_append hn, endOf_append hx.ne_nil]
  cases hf with
  | right ha ht =>
    cases h
    rw [List.append_assoc]
    exact .binary ha ht hx
  | operand ht =>
    cases h
    rw [span (startOf_cons _ _).symm (by simp)]
    exact .exprOperand (.prefixed ht hx)
  | value ha hd ho hi hc hw =>
    cases h
    rw [ha.start_eq, span (startOf_append ha.ne_nil _).symm (by simp)]
    have hp := Derives.put ha hd ho hi hc hw hx
    simp only [List.append_assoc, List.cons_append, List.nil_append] at hp ⊢
    exact .exprOperand hp
  | consequent hi hc ht =>
    cases h
    rw [span (startOf_cons _ _).symm (by simp)]
    have hp := Derives.cond hi hc ht hx
    simp only [List.append_assoc, List.cons_append, List.nil_append] at hp ⊢
    exact .exprOperand hp
  | alternative hi hc ht hy he =>
    cases h
    rw [span (startOf_cons _ _).symm (by simp)]
    have hp := Derives.condElse hi hc ht hy he hx
    simp only [List.append_assoc, List.cons_append, List.nil_append] at hp ⊢
    exact .exprOperand hp
  | letBody hh =>
    cases h
    rw [span rfl hh.ne_nil]
    exact .exprOperand (.bind hh hx)
  | letNext hh hb hn =>
    cases h
    rw [span (startOf_append hh.ne_nil _).symm (by simp)]
    have hp := Derives.bindIn hh hb hn hx
    simp only [List.append_assoc, List.cons_append, List.nil_append] at hp ⊢
    exact .exprOperand hp
  | recBody hh =>
    cases h
    rw [span rfl hh.ne_nil]
    exact .exprOperand (.bindRec hh hx)
  | recNext hh hb hn =>
    cases h
    rw [span (startOf_append hh.ne_nil _).symm (by simp)]
    have hp := Derives.bindRecIn hh hb hn hx
    simp only [List.append_assoc, List.cons_append, List.nil_append] at hp ⊢
    exact .exprOperand hp
  | sequel ha ht =>
    cases h
    rw [List.append_assoc]
    exact .seqCons ha ht hx
  | paren | index | condition => cases h

theorem FrameOf.taken {ks us xs : List Token} {f : Frame} {fs gs : List Frame} {focus : Focus}
    {t : Token} {x : Expr} (hk : StackOf ks fs) (hf : FrameOf us f) (hx : Derives f.category xs x)
    (h : f.taken? t x = some (gs, focus)) :
    t.used = [t] ∧ (∀ x r, focus ≠ .semi x r) ∧ ∃ ks' vs, StackOf ks' (gs ++ fs) ∧
      FocusOf vs focus ∧ ks' ++ vs = ks ++ us ++ xs ++ [t] := by
  -- a construct that waits for the next expression
  have next : ∀ {g : Frame} {vs : List Token}, FrameOf vs g → g.isSequel = false →
      vs = us ++ xs ++ [t] → ∃ ks' vs, StackOf ks' ([g] ++ fs) ∧ FocusOf vs .start ∧
        ks' ++ vs = ks ++ us ++ xs ++ [t] := by
    intro g vs hg hs hv
    exact ⟨ks ++ vs, [], .cons hk hg (by simp [hs]), .start, by simp [hv]⟩
  cases hf with
  | paren hs ho =>
    rw [Frame.taken?] at h
    split at h
    · next hc =>
      cases h
      refine ⟨Token.used_of_kind hc rfl, fill_ne_semi, ks, _, hk,
        hs.fill (.paren ho hx hc), ?_⟩
      simp
    · cases h
  | index ha hd ho =>
    rw [Frame.taken?] at h
    split at h
    · next hc =>
      cases h
      refine ⟨Token.used_of_kind hc rfl, by simp, ks, _, hk, .indexed ha hd ho hx hc, ?_⟩
      simp
    · cases h
  | condition hi =>
    rw [Frame.taken?] at h
    split at h
    · next hc =>
      cases h
      exact ⟨Token.used_of_kind hc rfl, by simp, next (.consequent hi hx hc) rfl (by simp)⟩
    · cases h
  | consequent hi hc ht =>
    rw [Frame.taken?] at h
    split at h
    · next he =>
      cases h
      exact ⟨Token.used_of_kind he rfl, by simp, next (.alternative hi hc ht hx he) rfl (by simp)⟩
    · cases h
  | letBody hh =>
    rw [Frame.taken?] at h
    split at h
    · next hn =>
      cases h
      exact ⟨Token.used_of_kind hn rfl, by simp, next (.letNext hh hx hn) rfl (by simp)⟩
    · cases h
  | recBody hh =>
    rw [Frame.taken?] at h
    split at h
    · next hn =>
      cases h
      exact ⟨Token.used_of_kind hn rfl, by simp, next (.recNext hh hx hn) rfl (by simp)⟩
    · cases h
  | right | operand | value | alternative | letNext | recNext | sequel => cases h

theorem settle_reads {is ks : List Token} {items : List Expr} {stack : List Frame} {t : Token}
    {s' : State} (hi : ItemsOf is items) (hk : StackOf ks stack) :
    ∀ {whole : Bool} {xs : List Token} {x : Expr}, Handed t stack whole xs x →
      settle items (endOf xs) t whole x stack = .ok s' → Reads (is ++ (ks ++ xs) ++ t.used) s' := by
  induction hk with
  | nil =>
    intro whole xs x hx h
    rw [settle_nil] at h
    split at h
    · next op ho =>
      cases h
      have ho := binding?_eq_some ho
      have hr := FrameOf.right (hx.expr_of_operator ho) (kind_of_operator? ho)
      rw [Token.used_of_kind (kind_of_operator? ho) rfl]
      exact .use hi (.cons .nil hr (by simp [Frame.isSequel])) .start (by simp) (by simp)
    · cases hx with
      | expr hx =>
        rw [← endOf_append hx.ne_nil is] at h
        exact top_reads (.item hi hx) h
      | seq _ hs _ => cases hs
  | @cons ks us f fs hk hf hs ih =>
    intro whole xs x hx h
    have hd := hx.derives
    rw [settle_cons] at h
    split at h
    · next op ho =>
      cases h
      have ho := binding?_eq_some ho
      have hr := FrameOf.right (hx.expr_of_operator ho) (kind_of_operator? ho)
      rw [Token.used_of_kind (kind_of_operator? ho) rfl]
      exact .use hi (.cons (.cons hk hf hs) hr (by simp [Frame.isSequel])) .start (by simp)
        (by simp)
    next ho =>
    split at h
    · next hg =>
      cases h
      obtain ⟨hq, rfl, ht, _⟩ := Frame.goesOn_iff.1 hg
      cases hx with
      | expr hx =>
        rw [Token.used_of_kind ht rfl]
        exact .use hi (.cons hk hf hs) (.semi hx ht) (fun _ _ _ => hq) (by simp)
    split at h
    · next gs focus hg =>
      cases h
      obtain ⟨hu, hn, ks', vs, hk', hv, he⟩ := FrameOf.taken hk hf hd hg
      rw [hu]
      refine .use hi hk' hv (fun x r h => absurd h (hn x r)) ?_
      rw [he]
      simp
    split at h
    · next y hy =>
      have hc := hf.closed hd rfl hy
      have hh : Handed t fs f.isSequel (us ++ xs) y := by
        cases hq : f.isSequel with
        | false =>
          rw [hq] at hc
          exact .expr hc
        | true =>
          rw [hq] at hc
          -- a sequel has strength 0, so the token is no operator
          have h0 : binding? 0 t = none := by
            cases f <;> first | exact ho | cases hq
          exact .seq hc (hs hq) (operator?_of_binding? h0)
      rw [← endOf_append hd.ne_nil us] at h
      have hr := ih hh h
      simp only [List.append_assoc] at hr ⊢
      exact hr
    · cases h

/-! ### Steps -/

section

variable {is ks fs : List Token} {items : List Expr} {stack : List Frame} {focus : Focus}
  {t : Token} {s : State}

/-- The state before the step, its parts taken from `Reads.inside`. -/
structure Inside (is ks fs : List Token) (s : State) : Prop where
  items : ItemsOf is s.items
  stack : StackOf ks s.stack
  last : s.last = endOf (is ++ (ks ++ fs))

theorem Inside.last_eq (h : Inside is ks fs s) (hn : fs ≠ []) : s.last = endOf fs := by
  rw [h.last, endOf_append (by simp [hn]), endOf_append hn]

theorem Inside.goOn {s' : State} (h : Inside is ks fs s) (ht : t.kind.isEof = false)
    (hf : FocusOf (fs ++ [t]) focus) (hn : ∀ x r, focus ≠ .semi x r)
    (hs : s.goOn t focus = .ok s') : Reads (is ++ (ks ++ fs) ++ t.used) s' := by
  cases hs
  rw [Token.used_of_kind rfl ht]
  exact .use h.items h.stack hf (fun x r h => absurd h (hn x r)) (by simp)

theorem Inside.await {s' : State} {f : Frame} (h : Inside is ks fs s) (ht : t.kind.isEof = false)
    (hf : FrameOf (fs ++ [t]) f) (hn : f.isSequel = false) (hs : s.await t f = .ok s') :
    Reads (is ++ (ks ++ fs) ++ t.used) s' := by
  cases hs
  rw [Token.used_of_kind rfl ht]
  exact .use h.items (.cons h.stack hf (by simp [hn])) .start (by simp) (by simp)

theorem Inside.complete {s' : State} {x : Expr} (h : Inside is ks fs s) (hx : Derives .expr fs x)
    (hs : s.complete x t = .ok s') : Reads (is ++ (ks ++ fs) ++ t.used) s' := by
  rw [State.complete, h.last_eq hx.ne_nil] at hs
  exact settle_reads h.items h.stack (.expr hx) hs

theorem bound_ne_semi {h : Header} {b : Binder} (x : Expr) (r : Range) : h.bound b ≠ .semi x r := by
  cases h <;> simp [Header.bound]

theorem Inside.stepCall {s' : State} {f : Expr} {as : List Expr} (h : Inside is ks fs s)
    (hc : CallOf fs f as) (hs : s.stepCall f as t = .ok s') :
    Reads (is ++ (ks ++ fs) ++ t.used) s' := by
  unfold State.stepCall at hs
  split at hs
  · next x hx => exact h.goOn (leaf?_isEof hx) (.call (hc.snoc (.leaf hx))) (by simp) hs
  split at hs
  · next ht => exact h.goOn (by rw [ht]; rfl) (.opened (.argument hc) ht) (by simp) hs
  · exact h.complete (.exprOperand (hc.operand (h.last_eq hc.ne_nil))) hs

theorem Inside.stepIndexed {s' : State} {us : List Token} {d o c : Token} {a i : Expr}
    (h : Inside is ks (fs ++ (d :: o :: (us ++ [c]))) s) (ha : Derives .array fs a)
    (hd : d.kind = .dot) (ho : o.kind = .lparen) (hi : Derives .expr us i) (hc : c.kind = .rparen)
    (hs : s.stepIndexed a i t = .ok s') :
    Reads (is ++ (ks ++ (fs ++ (d :: o :: (us ++ [c])))) ++ t.used) s' := by
  have hg := Derives.get ha hd ho hi hc
  have he : s.since a.range.start = spanOf (fs ++ (d :: o :: (us ++ [c]))) := by
    rw [State.since, h.last_eq (by simp), ha.start_eq, spanOf, startOf_append ha.ne_nil]
  unfold State.stepIndexed at hs
  rw [he] at hs
  split at hs
  · next ht =>
    refine h.await (by rw [ht]; rfl) ?_ rfl hs
    have hv := FrameOf.value ha hd ho hi hc ht
    simp only [List.append_assoc, List.cons_append, List.nil_append] at hv ⊢
    exact hv
  · next ht => exact h.goOn (by rw [ht]; rfl) (.dot hg ht) (by simp) hs
  · exact h.complete (.exprOperand (.operandArray hg)) hs

theorem Inside.stepBinder {s' : State} {hd : Header} (h : Inside is ks fs s) (hh : HeaderOf fs hd)
    (hs : s.stepBinder hd t = .ok s') : Reads (is ++ (ks ++ fs) ++ t.used) s' := by
  unfold State.stepBinder at hs
  split at hs
  · next ht => exact h.goOn (by rw [ht]; rfl) (hh.bound (.bare ht)) bound_ne_semi hs
  · next ht => exact h.goOn (by rw [ht]; rfl) (.binderOpened hh ht) (by simp) hs
  · cases hs

theorem Inside.stepType {s' : State} {next : Ty → Focus} (h : Inside is ks fs s)
    (hf : ∀ ty, TypeOf [t] ty → FocusOf (fs ++ [t]) (next ty)) (hn : ∀ ty x r, next ty ≠ .semi x r)
    (hs : s.stepType t next = .ok s') : Reads (is ++ (ks ++ fs) ++ t.used) s' := by
  unfold State.stepType at hs
  split at hs
  · next ht =>
    split at hs
    · next b hb => exact h.goOn (by rw [ht]; rfl) (hf _ (.basic ht hb)) (hn _) hs
    · cases hs
  · cases hs

theorem Inside.stepEquals {s' : State} {f : Frame} (h : Inside is ks fs s)
    (hf : t.kind = .operator .equal → FrameOf (fs ++ [t]) f) (hn : f.isSequel = false)
    (hs : s.stepEquals t f = .ok s') : Reads (is ++ (ks ++ fs) ++ t.used) s' := by
  unfold State.stepEquals at hs
  split at hs
  · next ht => exact h.await (by rw [ht]; rfl) (hf ht) hn hs
  · cases hs

theorem Inside.stepParams {s' : State} {hd : FunctionHead} (h : Inside is ks fs s)
    (hh : FunctionOf fs hd) (hs : s.stepParams hd t = .ok s') :
    Reads (is ++ (ks ++ fs) ++ t.used) s' := by
  unfold State.stepParams at hs
  split at hs
  · exact h.stepBinder (.function hh) hs
  split at hs
  · cases hs
  next hp =>
  have hp : hd.params ≠ [] := by simpa using hp
  split at hs
  · next ht => exact h.goOn (by rw [ht]; rfl) (.resultColon hh hp ht) (by simp) hs
  · exact h.stepEquals (fun ht => hh.recHead hp .none ht) rfl hs

theorem isArrayWord_iff {t : Token} : State.isArrayWord t = true ↔
    t.kind = .ident ∧ t.lit = arrayWord := by
  simp [State.isArrayWord]

end

/-- **A step reads its token.** -/
theorem State.step_reads {ts : List Token} {t : Token} {s s' : State} (h : Reads ts s)
    (hs : s.step t = .ok s') : Reads (ts ++ t.used) s' := by
  cases h with
  | top hi => exact top_reads hi hs
  | @inside is ks fs items stack focus hi hk hf hq =>
    have h : Inside is ks fs ⟨items, stack, focus, endOf (is ++ (ks ++ fs))⟩ := ⟨hi, hk, rfl⟩
    cases hf with
    | start =>
      rw [List.append_nil]
      exact begin_reads hi hk hs
    | @opened fs o slot hl ho =>
      simp only [State.step] at hs
      split at hs
      · next ht =>
        refine h.goOn (by rw [ht]; rfl) ?_ fill_ne_semi hs
        rw [List.append_assoc]
        exact hl.fill (.unit ho ht)
      · exact begin_reads hi (.cons hk (.paren hl ho) (by simp [Frame.isSequel])) hs
    | atom hx =>
      simp only [State.step] at hs
      split at hs
      · next ht => exact h.goOn (by rw [ht]; rfl) (.dot (.arrayAtom hx) ht) (by simp) hs
      · exact h.stepCall (.callee (.calleeAtom hx)) hs
    | call hc => exact h.stepCall hc hs
    | dot ha hd =>
      simp only [State.step] at hs
      split at hs
      · next ht =>
        refine h.await (by rw [ht]; rfl) ?_ rfl hs
        rw [List.append_assoc]
        exact .index ha hd ht
      · cases hs
    | indexed ha hd ho hx hc => exact h.stepIndexed ha hd ho hx hc hs
    | @semi fs m x hx hm =>
      have hon := hq _ _ rfl
      have hl := h.last_eq (by simp)
      simp only [State.step] at hs
      split at hs
      · next ht =>
        have ho : t.kind.operator? = none := by
          rcases Bool.or_eq_true_iff.1 ht with ht | ht
          · rw [of_decide_eq_true ht]; rfl
          · rw [of_decide_eq_true ht]; rfl
        simp only at hl
        rw [hl] at hs
        exact settle_reads hi hk (.seq (.seqTrailing hx hm) hon ho) hs
      · exact begin_reads hi (.cons hk (.sequel hx hm) (fun _ => hon)) hs
    | letWord hl =>
      simp only [State.step] at hs
      split at hs
      · next ht => exact h.goOn (by rw [ht]; rfl) (.recWord hl ht) (by simp) hs
      · exact h.stepBinder (.plain hl) hs
    | equals hl hb =>
      simp only [State.step] at hs
      exact h.stepEquals (fun ht => .letBody (.intro hl hb ht)) rfl hs
    | recWord hl hr =>
      simp only [State.step] at hs
      split at hs
      · next ht =>
        refine h.goOn (by rw [ht]; rfl) (.params (.intro hl hr ht ?_)) (by simp) hs
        exact .nil
      · cases hs
    | params hh => exact h.stepParams hh hs
    | resultColon hh hp hc =>
      refine h.stepType (fun ty hty => ?_) (by simp) hs
      rw [List.append_assoc]
      exact .resultType hh hp hc hty
    | resultType hh hp hc hty =>
      simp only [State.step] at hs
      split at hs
      · next ht =>
        obtain ⟨hi', hw⟩ := isArrayWord_iff.1 ht
        refine h.goOn (by rw [hi']; rfl) ?_ (by simp) hs
        rw [List.append_assoc]
        exact .resultType hh hp hc (.array hty hi' hw)
      · refine h.stepEquals (fun ht => ?_) rfl hs
        rw [List.append_assoc]
        exact hh.recHead hp (.some hc hty) ht
    | binderOpened hh ha =>
      simp only [State.step] at hs
      split at hs
      · next ht =>
        refine h.goOn (by rw [ht]; rfl) ?_ (by simp) hs
        rw [List.append_assoc]
        exact .binderName hh ha ht
      · cases hs
    | binderName hh ha hn =>
      simp only [State.step] at hs
      split at hs
      · next ht =>
        refine h.goOn (by rw [ht]; rfl) ?_ (by simp) hs
        rw [List.append_assoc]
        exact .binderColon hh ha hn ht
      · cases hs
    | binderColon hh ha hn hc =>
      refine h.stepType (fun ty hty => ?_) (by simp) hs
      rw [List.append_assoc]
      exact .binderType hh ha hn hc hty
    | binderType hh ha hn hc hty =>
      simp only [State.step] at hs
      split at hs
      · next ht =>
        obtain ⟨hi', hw⟩ := isArrayWord_iff.1 ht
        refine h.goOn (by rw [hi']; rfl) ?_ (by simp) hs
        rw [List.append_assoc]
        exact .binderType hh ha hn hc (.array hty hi' hw)
      split at hs
      · next ht =>
        refine h.goOn (by rw [ht]; rfl) ?_ bound_ne_semi hs
        rw [List.append_assoc]
        exact hh.bound (.annotated ha hn hc hty ht)
      · cases hs

/-- **A run reads its tokens.** -/
theorem Reads.run {us ts : List Token} {s s' : State} (h : Reads us s)
    (he : ∀ t ∈ ts, t.isEof = false) (hr : s.run ts = .ok s') : Reads (us ++ ts) s' := by
  refine State.run_invariant (fun us s t s' ht hi hs => ?_) he h hr
  have := State.step_reads hi hs
  rwa [Token.used_of_not_eof ht] at this

/-! ### The end -/

theorem begin_eof {items : List Expr} {stack : List Frame} {t : Token} {s' : State}
    (ht : t.kind = .eof) : begin items stack t ≠ .ok s' := by
  simp [begin, Token.leaf?, ht]

theorem settle_eof {items : List Expr} {last : Location} {t : Token} {s' : State}
    (ht : t.kind = .eof) (stack : List Frame) : ∀ {whole : Bool} {x : Expr},
    settle items last t whole x stack = .ok s' → s'.focus = .top := by
  induction stack with
  | nil =>
    intro whole x h
    rw [settle_nil, binding?_eof ht] at h
    simp only [top, ht] at h
    cases h
    rfl
  | cons f fs ih =>
    intro whole x h
    rw [settle_cons, binding?_eof ht, goesOn_eof ht, taken?_eof ht] at h
    simp only [Bool.false_eq_true, if_false] at h
    split at h
    · exact ih h
    · cases h

/-- The end token is only used between two items. -/
theorem State.focus_of_step_eof {s s' : State} {t : Token} (ht : t.kind = .eof)
    (h : s.step t = .ok s') : s'.focus = .top := by
  obtain ⟨items, stack, focus, last⟩ := s
  cases focus with
  | top =>
    simp only [State.step, top, ht] at h
    cases h
    rfl
  | start => exact absurd h (begin_eof ht)
  | opened o slot =>
    simp only [State.step, ht, reduceCtorEq, if_false] at h
    exact absurd h (begin_eof ht)
  | semi x r =>
    simp only [State.step, ht] at h
    exact settle_eof ht _ h
  | atom x =>
    simp only [State.step, State.stepCall, Token.leaf?, ht, reduceCtorEq, if_false] at h
    exact settle_eof ht _ h
  | call f as =>
    simp only [State.step, State.stepCall, Token.leaf?, ht, reduceCtorEq, if_false] at h
    exact settle_eof ht _ h
  | indexed a i =>
    simp only [State.step, State.stepIndexed, ht] at h
    exact settle_eof ht _ h
  | params hd =>
    simp only [State.step, State.stepParams, State.stepEquals, ht, reduceCtorEq, decide_false,
      Bool.or_self, Bool.false_eq_true, if_false] at h
    split at h <;> cases h
  | _ =>
    simp [State.step, State.stepBinder, State.stepEquals, State.stepType, State.isArrayWord,
      ht] at h

theorem items_program (s : State) (t : Token) : (s.program t).items = s.items.reverse := by
  rw [State.program]
  split <;> simp_all

end Grammar

open Grammar

namespace Program

/-- **A program is derived from the tokens of its text**, all of them, each used once.  The end
token `e` stands behind them. -/
theorem itemsOf_parse {settings : Settings} {text : List Char} {p : Program}
    (h : (parse settings text).result = .ok p) :
    ∃ ts src e items, (Stream.ofText settings text).Emits ts src ∧ src.next.1 = .ok e ∧
      e.isEof = true ∧ ItemsOf ts items ∧ p = State.program ⟨items, [], .top, endOf ts⟩ e := by
  obtain ⟨ts, src, s, he, hs, hp⟩ := Parse.run_halts .initial (.ofText settings text)
  have hr : Reads ts s := reads_initial.run he.isEof_eq_false hs
  rw [parse] at h
  generalize Parse.run .initial (.ofText settings text) = r at h hp
  cases hp with
  | fault _ => cases h
  | issue _ _ => cases h
  | @finish e s' hn ht hs =>
    cases h
    have hr' := State.step_reads hr hs
    have hf := State.focus_of_step_eof (kind_of_isEof ht) hs
    rw [Token.used, if_pos ht, List.append_nil] at hr'
    cases hr' with
    | top hi => exact ⟨ts, src, e, _, he, hn, ht, hi, rfl⟩
    | inside _ _ hf' _ =>
      cases hf
      cases hf'

end Program

end SmallMl
