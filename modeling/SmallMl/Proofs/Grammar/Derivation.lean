import SmallMl.Grammar.Step

/-!
# The grammar

`Derives c ts x` says that the tokens `ts` make up a phrase of the category `c` and that `x` is its
tree, with all ranges.  It says nothing about how tokens are read; in particular it leaves the
precedence of operators and the extent of an open construct to the reader.

A phrase covers the stretch from the start of its first token to the end of its last one, `spanOf`.
`Derives.range_eq` says that the range in the tree is that stretch, with one exception: the
semicolon at the end of a sequence belongs to no expression of it.
-/

namespace SmallMl.Grammar

/-! ### Stretches of tokens -/

def startOf : List Token → Location
  | [] => default
  | t :: _ => t.range.start

def endOf (ts : List Token) : Location :=
  match ts.getLast? with
  | none => default
  | some t => t.range.stop

def spanOf (ts : List Token) : Range := ⟨startOf ts, endOf ts⟩

@[simp] theorem startOf_cons (t : Token) (ts : List Token) :
    startOf (t :: ts) = t.range.start := rfl

theorem startOf_append {ts : List Token} (h : ts ≠ []) (us : List Token) :
    startOf (ts ++ us) = startOf ts := by
  cases ts with
  | nil => exact absurd rfl h
  | cons t ts => rfl

@[simp] theorem endOf_singleton (t : Token) : endOf [t] = t.range.stop := rfl

theorem endOf_append {us : List Token} (h : us ≠ []) (ts : List Token) :
    endOf (ts ++ us) = endOf us := by
  rw [endOf, endOf, List.getLast?_append, List.getLast?_eq_some_getLast h]
  rfl

@[simp] theorem spanOf_singleton (t : Token) : spanOf [t] = t.range := rfl

theorem span_spanOf {ts vs : List Token} (h : ts ≠ []) (h' : vs ≠ []) (us : List Token) :
    Range.span (spanOf ts) (spanOf vs) = spanOf (ts ++ (us ++ vs)) := by
  simp only [Range.span, spanOf]
  rw [startOf_append h, ← List.append_assoc, endOf_append h']

/-! ### Types, binders and heads -/

/-- `int`, `float array array` -/
inductive TypeOf : List Token → Ty → Prop
  | basic {t : Token} {b : Basic} : t.kind = .ident → Basic.ofName? t.lit = some b →
      TypeOf [t] (.basic b)
  | array {ts : List Token} {t : Token} {ty : Ty} : TypeOf ts ty → t.kind = .ident →
      t.lit = arrayWord → TypeOf (ts ++ [t]) (.array ty)

/-- `x`, `(x : int)` -/
inductive BinderOf : List Token → Binder → Prop
  | bare {t : Token} : t.kind = .ident → BinderOf [t] ⟨t.name, none, t.range⟩
  | annotated {a n c b : Token} {ts : List Token} {ty : Ty} : a.kind = .lparen →
      n.kind = .ident → c.kind = .colon → TypeOf ts ty → b.kind = .rparen →
      BinderOf (a :: n :: c :: (ts ++ [b])) ⟨n.name, some ty, ⟨a.range.start, b.range.stop⟩⟩

inductive ParamsOf : List Token → List Binder → Prop
  | nil : ParamsOf [] []
  | snoc {ts us : List Token} {ps : List Binder} {p : Binder} : ParamsOf ts ps →
      BinderOf us p → ParamsOf (ts ++ us) (ps ++ [p])

inductive ResultOf : List Token → Option Ty → Prop
  | none : ResultOf [] none
  | some {c : Token} {ts : List Token} {ty : Ty} : c.kind = .colon → TypeOf ts ty →
      ResultOf (c :: ts) (some ty)

/-- `let b =` -/
inductive LetHead : List Token → Binder → Prop
  | intro {l e : Token} {ts : List Token} {b : Binder} : l.kind = .letWord → BinderOf ts b →
      e.kind = .operator .equal → LetHead (l :: (ts ++ [e])) b

/-- `let rec fn params : type =` -/
inductive RecHead : List Token → Binder → List Binder → Prop
  | intro {l r n e : Token} {ts us : List Token} {ps : List Binder} {ty : Option Ty} :
      l.kind = .letWord → r.kind = .recWord → n.kind = .ident → ParamsOf ts ps → ps ≠ [] →
      ResultOf us ty → e.kind = .operator .equal →
      RecHead (l :: r :: n :: (ts ++ (us ++ [e]))) ⟨n.name, ty, n.range⟩ ps

def prefixOp? : Kind → Option UnaryOp
  | .notWord => some .not
  | .operator .minus => some .neg
  | .operator .minusDot => some .fneg
  | _ => none

/-! ### Expressions -/

inductive Category
  | atom
  /-- What may be applied: an atom or the array constructor. -/
  | callee
  /-- A callee with at least one argument. -/
  | call
  /-- What may be indexed: an atom with any number of indices. -/
  | array
  | operand
  | expr
  | seq

/-- **The grammar.** -/
inductive Derives : Category → List Token → Expr → Prop
  | leaf {t : Token} {x : Expr} : t.leaf? = some x → Derives .atom [t] x
  | unit {a b : Token} : a.kind = .lparen → b.kind = .rparen →
      Derives .atom [a, b] (.unit ⟨a.range.start, b.range.stop⟩)
  | paren {a b : Token} {ts : List Token} {x : Expr} : a.kind = .lparen → Derives .seq ts x →
      b.kind = .rparen →
      Derives .atom (a :: (ts ++ [b])) (x.withRange ⟨a.range.start, b.range.stop⟩)
  | calleeAtom {ts : List Token} {x : Expr} : Derives .atom ts x → Derives .callee ts x
  | calleeMake {t : Token} : t.kind = .arrayMake → Derives .callee [t] (.var t.range arrayMake)
  | firstArgument {ts us : List Token} {f a : Expr} : Derives .callee ts f → Derives .atom us a →
      Derives .call (ts ++ us) (.call (spanOf (ts ++ us)) f [a])
  | nextArgument {ts us : List Token} {r : Range} {f a : Expr} {as : List Expr} :
      Derives .call ts (.call r f as) → Derives .atom us a →
      Derives .call (ts ++ us) (.call (spanOf (ts ++ us)) f (as ++ [a]))
  | arrayAtom {ts : List Token} {x : Expr} : Derives .atom ts x → Derives .array ts x
  | get {ts us : List Token} {d o c : Token} {a i : Expr} : Derives .array ts a →
      d.kind = .dot → o.kind = .lparen → Derives .expr us i → c.kind = .rparen →
      Derives .array (ts ++ (d :: o :: (us ++ [c])))
        (.get (spanOf (ts ++ (d :: o :: (us ++ [c])))) a i)
  | operandCallee {ts : List Token} {x : Expr} : Derives .callee ts x → Derives .operand ts x
  | operandCall {ts : List Token} {x : Expr} : Derives .call ts x → Derives .operand ts x
  | operandArray {ts : List Token} {x : Expr} : Derives .array ts x → Derives .operand ts x
  | put {ts us vs : List Token} {d o c w : Token} {a i v : Expr} : Derives .array ts a →
      d.kind = .dot → o.kind = .lparen → Derives .expr us i → c.kind = .rparen →
      w.kind = .leftArrow → Derives .expr vs v →
      Derives .operand (ts ++ (d :: o :: (us ++ (c :: w :: vs))))
        (.put (spanOf (ts ++ (d :: o :: (us ++ (c :: w :: vs))))) a i v)
  | prefixed {t : Token} {ts : List Token} {op : UnaryOp} {x : Expr} : prefixOp? t.kind = some op →
      Derives .expr ts x → Derives .operand (t :: ts) (.unary (spanOf (t :: ts)) op x)
  | cond {i h : Token} {cs ys : List Token} {c y : Expr} : i.kind = .ifWord →
      Derives .expr cs c → h.kind = .thenWord → Derives .expr ys y →
      Derives .operand (i :: (cs ++ (h :: ys)))
        (.cond (spanOf (i :: (cs ++ (h :: ys)))) c y none i.range none)
  | condElse {i h e : Token} {cs ys ns : List Token} {c y n : Expr} : i.kind = .ifWord →
      Derives .expr cs c → h.kind = .thenWord → Derives .expr ys y → e.kind = .elseWord →
      Derives .expr ns n →
      Derives .operand (i :: (cs ++ (h :: (ys ++ (e :: ns)))))
        (.cond (spanOf (i :: (cs ++ (h :: (ys ++ (e :: ns)))))) c y (some n) i.range (some e.range))
  | bind {hs ts : List Token} {b : Binder} {x : Expr} : LetHead hs b → Derives .expr ts x →
      Derives .operand (hs ++ ts) (.bind (spanOf (hs ++ ts)) b x none)
  | bindIn {hs ts us : List Token} {n : Token} {b : Binder} {x y : Expr} : LetHead hs b →
      Derives .expr ts x → n.kind = .inWord → Derives .seq us y →
      Derives .operand (hs ++ (ts ++ (n :: us)))
        (.bind (spanOf (hs ++ (ts ++ (n :: us)))) b x (some y))
  | bindRec {hs ts : List Token} {f : Binder} {ps : List Binder} {x : Expr} : RecHead hs f ps →
      Derives .expr ts x →
      Derives .operand (hs ++ ts) (.bindRec (spanOf (hs ++ ts)) f ps x none)
  | bindRecIn {hs ts us : List Token} {n : Token} {f : Binder} {ps : List Binder} {x y : Expr} :
      RecHead hs f ps → Derives .expr ts x → n.kind = .inWord → Derives .seq us y →
      Derives .operand (hs ++ (ts ++ (n :: us)))
        (.bindRec (spanOf (hs ++ (ts ++ (n :: us)))) f ps x (some y))
  | exprOperand {ts : List Token} {x : Expr} : Derives .operand ts x → Derives .expr ts x
  | binary {ts us : List Token} {t : Token} {op : Operator} {x y : Expr} : Derives .expr ts x →
      t.kind = .operator op → Derives .expr us y →
      Derives .expr (ts ++ (t :: us)) (op.combine x y)
  | seqExpr {ts : List Token} {x : Expr} : Derives .expr ts x → Derives .seq ts x
  | seqTrailing {ts : List Token} {t : Token} {x : Expr} : Derives .expr ts x → t.kind = .semi →
      Derives .seq (ts ++ [t]) x
  | seqCons {ts us : List Token} {t : Token} {x y : Expr} : Derives .expr ts x →
      t.kind = .semi → Derives .seq us y →
      Derives .seq (ts ++ (t :: us))
        (.bind (Range.span x.range y.range) ⟨discarded, some (.basic .unit), t.range⟩ x (some y))

/-- The expressions of a program, the latest first: expressions with semicolons around them. -/
inductive ItemsOf : List Token → List Expr → Prop
  | nil : ItemsOf [] []
  | semi {ts : List Token} {t : Token} {xs : List Expr} : ItemsOf ts xs → t.kind = .semi →
      ItemsOf (ts ++ [t]) xs
  | item {ts us : List Token} {x : Expr} {xs : List Expr} : ItemsOf ts xs → Derives .expr us x →
      ItemsOf (ts ++ us) (x :: xs)

/-! ### Ranges -/

theorem leaf?_range {t : Token} {x : Expr} (h : t.leaf? = some x) :
    x.range = t.range ∧ x.isMissing = false := by
  unfold Token.leaf? at h
  split at h <;> first | (cases h; exact ⟨rfl, rfl⟩) | cases h

theorem range_combine (op : Operator) (x y : Expr) :
    (op.combine x y).range = Range.span x.range y.range := by
  cases op <;> rfl

theorem isMissing_combine (op : Operator) (x y : Expr) : (op.combine x y).isMissing = false := by
  cases op <;> rfl

theorem isMissing_withRange (r : Range) (x : Expr) : (x.withRange r).isMissing = x.isMissing := by
  cases x <;> rfl

theorem BinderOf.ne_nil {ts : List Token} {b : Binder} (h : BinderOf ts b) : ts ≠ [] := by
  cases h <;> simp

theorem BinderOf.range_eq {ts : List Token} {b : Binder} (h : BinderOf ts b) :
    b.range = spanOf ts := by
  cases h with
  | bare ht => rfl
  | @annotated a n c b ts ty ha hn hc hts hb =>
    simp only [spanOf, startOf_cons]
    rw [show a :: n :: c :: (ts ++ [b]) = (a :: n :: c :: ts) ++ [b] from rfl,
      endOf_append (by simp), endOf_singleton]

theorem LetHead.ne_nil {ts : List Token} {b : Binder} (h : LetHead ts b) : ts ≠ [] := by
  cases h
  simp

theorem RecHead.ne_nil {ts : List Token} {f : Binder} {ps : List Binder} (h : RecHead ts f ps) :
    ts ≠ [] := by
  cases h
  simp

namespace Derives

variable {c : Category} {ts : List Token} {x : Expr}

theorem ne_nil (h : Derives c ts x) : ts ≠ [] := by
  induction h with
  | bind hh _ ih => simp [ih]
  | bindRec hh _ ih => simp [ih]
  | calleeAtom _ ih | arrayAtom _ ih | operandCallee _ ih | operandCall _ ih | operandArray _ ih
    | exprOperand _ ih | seqExpr _ ih => exact ih
  | firstArgument _ _ ih _ | nextArgument _ _ ih _ => simp [ih]
  | _ => simp

theorem isMissing_eq (h : Derives c ts x) : x.isMissing = false := by
  induction h with
  | leaf ht => exact (leaf?_range ht).2
  | paren _ _ _ ih => rw [isMissing_withRange, ih]
  | binary _ _ _ _ _ => exact isMissing_combine _ _ _
  | calleeAtom _ ih | arrayAtom _ ih | operandCallee _ ih | operandCall _ ih | operandArray _ ih
    | exprOperand _ ih | seqExpr _ ih | seqTrailing _ _ ih => exact ih
  | _ => rfl

theorem whole_stretch {c : Category} {ts : List Token} {r : Range} (hn : ts ≠ [])
    (hr : r = spanOf ts) :
    ∃ us vs, ts = us ++ vs ∧ us ≠ [] ∧ r = spanOf us ∧ (c ≠ .seq → vs = []) :=
  ⟨ts, [], (List.append_nil ts).symm, hn, hr, fun _ => rfl⟩

/-- **The range of a tree is the stretch of its tokens**, without the semicolon at the end of a
sequence. -/
theorem range_eq (h : Derives c ts x) :
    ∃ us vs, ts = us ++ vs ∧ us ≠ [] ∧ x.range = spanOf us ∧ (c ≠ .seq → vs = []) := by
  induction h with
  | leaf ht => exact whole_stretch (by simp) (leaf?_range ht).1
  | unit _ _ => exact whole_stretch (by simp) rfl
  | @paren a b ts x _ hx _ _ =>
    refine whole_stretch (by simp) ?_
    rw [Expr.range_withRange _ hx.isMissing_eq, spanOf, startOf_cons,
      show a :: (ts ++ [b]) = (a :: ts) ++ [b] from rfl, endOf_append (by simp), endOf_singleton]
  | calleeAtom _ ih | arrayAtom _ ih | operandCallee _ ih | operandCall _ ih | operandArray _ ih
    | exprOperand _ ih =>
    obtain ⟨us, vs, he, hu, hr, hv⟩ := ih
    exact ⟨us, vs, he, hu, hr, fun _ => hv (by simp)⟩
  | @binary ts us t op x y hx _ hy ihx ihy =>
    obtain ⟨as, as', hea, hna, hra, hva⟩ := ihx
    obtain ⟨bs, bs', heb, hnb, hrb, hvb⟩ := ihy
    rw [hva (by simp), List.append_nil] at hea
    rw [hvb (by simp), List.append_nil] at heb
    subst hea heb
    refine whole_stretch (by simp) ?_
    rw [range_combine, hra, hrb]
    exact span_spanOf hna hnb [t]
  | seqExpr _ ih =>
    obtain ⟨us, vs, he, hu, hr, _⟩ := ih
    exact ⟨us, vs, he, hu, hr, fun h => absurd rfl h⟩
  | seqTrailing _ _ ih =>
    obtain ⟨us, vs, he, hu, hr, _⟩ := ih
    exact ⟨us, vs ++ [_], by rw [he, List.append_assoc], hu, hr, fun h => absurd rfl h⟩
  | @seqCons ts us t x y hx _ hy ihx ihy =>
    obtain ⟨as, as', hea, hna, hra, hva⟩ := ihx
    obtain ⟨bs, bs', heb, hnb, hrb, _⟩ := ihy
    rw [hva (by simp), List.append_nil] at hea
    subst hea heb
    refine ⟨ts ++ (t :: bs), bs', by simp, by simp, ?_, fun h => absurd rfl h⟩
    show Range.span x.range y.range = spanOf (ts ++ (t :: bs))
    rw [hra, hrb]
    exact span_spanOf hna hnb [t]
  | bind hh hx _ | bindRec hh hx _ => exact whole_stretch (by simp [hx.ne_nil]) rfl
  | firstArgument hf _ _ _ | nextArgument hf _ _ _ => exact whole_stretch (by simp [hf.ne_nil]) rfl
  | _ => exact whole_stretch (by simp) rfl

/-- The range of a phrase that is no sequence is the stretch of its tokens. -/
theorem range_eq_spanOf (h : Derives c ts x) (hc : c ≠ .seq) : x.range = spanOf ts := by
  obtain ⟨us, vs, he, _, hr, hv⟩ := h.range_eq
  rw [hv hc, List.append_nil] at he
  rw [hr, he]

theorem start_eq (h : Derives c ts x) : x.range.start = startOf ts := by
  obtain ⟨us, vs, rfl, hn, hr, _⟩ := h.range_eq
  rw [hr, startOf_append hn]
  rfl

theorem between {us all : List Token} {t : Token} {y : Expr} (hx : Derives .expr ts x)
    (hy : Derives .expr us y) (hi : ts ++ (t :: us) <:+: all) :
    ∃ u v, [u, t, v] <:+: all ∧ x.range.stop = u.range.stop ∧ y.range.start = v.range.start := by
  have hrx := hx.range_eq_spanOf (by simp)
  have hry := hy.range_eq_spanOf (by simp)
  obtain ⟨ts', u, rfl⟩ := (List.eq_nil_or_concat ts).resolve_left hx.ne_nil
  obtain ⟨v, us', rfl⟩ := List.exists_cons_of_ne_nil hy.ne_nil
  rw [List.concat_eq_append] at hi hrx
  refine ⟨u, v, List.IsInfix.trans ⟨ts', us', by simp⟩ hi, ?_, ?_⟩
  · rw [hrx]
    show endOf (ts' ++ [u]) = u.range.stop
    rw [endOf_append (by simp), endOf_singleton]
  · rw [hry]
    rfl

end Derives

end SmallMl.Grammar
