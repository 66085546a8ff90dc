import SmallMl.Proofs.Grammar.Derivation
import SmallMl.Proofs.Grammar.Follows

/-!
# Operands

What stands between two operators: an atom, a call, an element of an array, or any of these with
operators in front (`OperandOf`).  The descent reads the tokens of an operand as its tree, provided
that the token behind them does not go on with it (`OperandOf.comes`).  Which tokens do depends on
how the operand ends: arguments go on with an atom and with a call, a dot goes on with an atom and
with an element.

What is in parentheses is any expression at all, so of that it is only said that the descent reads
it in front of the closing parenthesis (`ReadsInside`).
-/

namespace SmallMl.Grammar

namespace Reader.Passes

variable {r r' : Reader} {t : Token} {us vs : List Token}

theorem tok (h : Passes r (t :: us) r') : r.tok = t ∧ t.isEof = false := by
  cases h with
  | head he => exact ⟨rfl, he⟩

theorem next (h : Passes r (t :: us) r') : ∃ r₁, Reading.next.run r = some (.ok (), r₁) ∧
    r₁.last = t.range.stop ∧ Passes r₁ us r' := by
  cases h with
  | head he hn h => exact ⟨_, Reading.run_next_of_ok hn, rfl, h⟩

theorem split : ∀ {us : List Token} {r : Reader}, Passes r (us ++ vs) r' →
    ∃ r₁, Passes r us r₁ ∧ Passes r₁ vs r' := by
  intro us
  induction us with
  | nil => exact fun h => ⟨_, .refl _, h⟩
  | cons t us ih =>
    intro r h
    cases h with
    | head he hn h =>
      obtain ⟨r₁, h₁, h₂⟩ := ih h
      exact ⟨r₁, .head he hn h₁, h₂⟩

theorem last (h : Passes r us r') (hu : us ≠ []) : r'.last = endOf us := by
  induction h with
  | refl => exact absurd rfl hu
  | @head r r' t ts he hn h ih =>
    cases h with
    | refl => rfl
    | head => exact (ih (by simp)).trans (endOf_append (by simp) [r.tok]).symm

end Reader.Passes

open Reader (Passes)
open Reading

namespace Descent

variable {α : Type} {r r' : Reader} {t : Token} {us vs : List Token} {x : Expr} {prec : Nat}

/-- The program reads the tokens in front of a closing parenthesis. -/
def ReadsInside (m : Descent α) (us : List Token) (a : α) : Prop :=
  ∀ r r', Passes r us r' → r'.tok.kind = .rparen → Comes m r (.ok a) r'

theorem run_expect {k : Kind} (h : Passes r (t :: us) r') (hk : t.kind = k) (loc : Location)
    (c : Complaint) : ∃ r₁, (expect k loc c).run r = some (.ok (), r₁) ∧
      r₁.last = t.range.stop ∧ Passes r₁ us r' := by
  obtain ⟨r₁, hn, h₁⟩ := h.next
  refine ⟨r₁, ?_, h₁⟩
  rw [expect, run_ahead, h.tok.1, if_pos hk, hn]

/-! ### Expressions without operators behind them -/

theorem comes_operators_of_stop (h : binding? prec r.tok = none) (x : Expr) :
    Comes (operators prec x) r (.ok x) r := by
  have ho : Comes (operation prec x) r (.ok none) r := by
    refine .of_run_succ fun n => ?_
    rw [operation, run_ahead, h]
    rfl
  refine .deeper ?_
  filter_upwards [ho] with n ho
  rw [operators, run_bind_of_ok ho]
  rfl

theorem comes_expr {y : Expr} {r₁ : Reader} (h : Comes operand r (.ok (some x)) r₁)
    (ho : Comes (operators prec x) r₁ (.ok y) r') : Comes (expr prec) r (.ok (some y)) r' := by
  refine .deeper ?_
  filter_upwards [h, ho] with n h ho
  rw [expr, run_bind_of_ok h]
  dsimp only
  rw [run_bind_of_ok ho]
  rfl

theorem comes_mustExpr (h : Comes (expr prec) r (.ok (some x)) r') :
    Comes (mustExpr prec) r (.ok x) r' := by
  refine .deeper ?_
  filter_upwards [h] with n h
  rw [mustExpr, run_bind_of_ok h]
  rfl

theorem comes_mustExpr_of_stop (h : Comes operand r (.ok (some x)) r')
    (hs : binding? prec r'.tok = none) : Comes (mustExpr prec) r (.ok x) r' :=
  comes_mustExpr (comes_expr h (comes_operators_of_stop hs x))

/-- No operator between operands binds as tightly as an operator in front of one. -/
theorem binding?_unary (op : UnaryOp) (t : Token) : binding? op.precedence t = none := by
  refine Option.filter_eq_none_iff.2 fun o _ ho => ?_
  have hle : 10 ≤ o.precedence := of_decide_eq_true ho
  have := o.precedence_le
  omega

theorem comes_simpleExpr_none (hl : r.tok.leaf? = none) (hk : r.tok.kind ≠ .lparen) :
    Comes simpleExpr r (.ok none) r := by
  refine .of_run_succ fun n => ?_
  rw [simpleExpr, run_ahead, hl]
  dsimp only
  rw [if_neg hk]
  rfl

theorem comes_mustExpr_of_mark (h : r.tok.kind = .rparen ∨ r.tok.kind = .semi) (prec : Nat) :
    Comes (mustExpr prec) r (.error (.issue (.unexpected r.tok))) r := by
  have hs : Comes simpleExpr r (.ok none) r := by
    refine comes_simpleExpr_none ?_ ?_ <;> rcases h with h | h <;> simp [Token.leaf?, h]
  have ho : Comes operand r (.ok none) r := by
    refine .deeper ?_
    filter_upwards [hs] with n hs
    rw [operand, run_bind_of_ok hs]
    dsimp only
    rw [run_ahead]
    rcases h with h | h <;> rw [h] <;> rfl
  have he : Comes (expr prec) r (.ok none) r := by
    refine .deeper ?_
    filter_upwards [ho] with n ho
    rw [expr, run_bind_of_ok ho]
    rfl
  refine .deeper ?_
  filter_upwards [he] with n he
  rw [mustExpr, run_bind_of_ok he]
  rfl

end Descent

open Descent (ReadsInside)

/-! ### Atoms -/

/-- The tokens are an atom with the given tree. -/
inductive AtomOf : List Token → Expr → Prop
  | leaf {t : Token} {x : Expr} : t.leaf? = some x → AtomOf [t] x
  | unit {o c : Token} : o.kind = .lparen → c.kind = .rparen →
      AtomOf [o, c] (.unit ⟨o.range.start, c.range.stop⟩)
  | group {o c : Token} {us : List Token} {x : Expr} : o.kind = .lparen → c.kind = .rparen →
      ReadsInside Descent.seqExpr us x →
      AtomOf (o :: (us ++ [c])) (x.withRange ⟨o.range.start, c.range.stop⟩)

inductive ArgumentsOf : List Token → List Expr → Prop
  | nil : ArgumentsOf [] []
  | cons {us vs : List Token} {x : Expr} {xs : List Expr} : AtomOf us x → ArgumentsOf vs xs →
      ArgumentsOf (us ++ vs) (x :: xs)

/-- The tokens take elements out of the first expression, one out of the other, and come to the
second one. -/
inductive ElementsOf : Expr → List Token → Expr → Prop
  | nil (a : Expr) : ElementsOf a [] a
  | cons {a i x : Expr} {d o c : Token} {us vs : List Token} : d.kind = .dot → o.kind = .lparen →
      c.kind = .rparen → ReadsInside (Descent.mustExpr 0) us i →
      ElementsOf (.get ⟨a.range.start, c.range.stop⟩ a i) vs x →
      ElementsOf a (d :: o :: (us ++ c :: vs)) x

/-- The call of `fn`, which is just `fn` if there are no arguments; `last` is where it ends. -/
def applied (fn : Expr) (args : List Expr) (last : Location) : Expr :=
  if args.isEmpty then fn else .call ⟨fn.range.start, last⟩ fn args

def sign? : Kind → Option UnaryOp
  | .notWord => some .not
  | .operator .minus => some .neg
  | .operator .minusDot => some .fneg
  | _ => none

/-- How an operand ends. -/
inductive Ending
  | atom
  | call
  | element

/-- The token goes on with an operand that ends like this. -/
def Ending.goesOn : Ending → Token → Bool
  | atom, t => t.leaf?.isSome || t.kind = .lparen || t.kind = .dot
  | call, t => t.leaf?.isSome || t.kind = .lparen
  | element, t => t.kind = .dot || t.kind = .leftArrow

/-- **The tokens are an operand** with the given tree. -/
inductive OperandOf : Ending → List Token → Expr → Prop
  | atom {us : List Token} {x : Expr} : AtomOf us x → OperandOf .atom us x
  | call {us vs : List Token} {fn : Expr} {args : List Expr} : AtomOf us fn → ArgumentsOf vs args →
      args ≠ [] → OperandOf .call (us ++ vs) (applied fn args (endOf vs))
  | make {t : Token} {vs : List Token} {args : List Expr} : t.kind = .arrayMake →
      ArgumentsOf vs args →
      OperandOf .call (t :: vs) (applied (.var t.range arrayMake) args (endOf vs))
  | element {us vs : List Token} {a x : Expr} : AtomOf us a → ElementsOf a vs x → vs ≠ [] →
      OperandOf .element (us ++ vs) x
  | signed {e : Ending} {t : Token} {op : UnaryOp} {us : List Token} {x : Expr} :
      sign? t.kind = some op → OperandOf e us x →
      OperandOf e (t :: us) (.unary ⟨t.range.start, endOf us⟩ op x)

theorem AtomOf.ne_nil {us : List Token} {x : Expr} (h : AtomOf us x) : us ≠ [] := by
  cases h <;> simp

theorem OperandOf.ne_nil {e : Ending} {us : List Token} {x : Expr} (h : OperandOf e us x) :
    us ≠ [] := by
  cases h with
  | atom ha => exact ha.ne_nil
  | call ha | element ha => exact List.append_ne_nil_of_left_ne_nil ha.ne_nil _
  | make | signed => simp

/-! ### Reading them -/

section

open Descent

variable {r r' : Reader} {t : Token} {us vs : List Token} {x a : Expr}

theorem comes_seqExpr_of_mark (h : r.tok.kind = .rparen) :
    Comes seqExpr r (.error (.issue (.unexpected r.tok))) r := by
  refine .deeper ?_
  filter_upwards [comes_mustExpr_of_mark (.inl h) 0] with n hm
  rw [seqExpr, run_bind_of_error hm]

theorem comes_simpleExpr_of_paren (hk : r.tok.kind = .lparen) (h : Comes parenExpr r (.ok x) r') :
    Comes simpleExpr r (.ok (some x)) r' := by
  have hl : r.tok.leaf? = none := by rw [Token.leaf?, hk]
  refine .deeper ?_
  filter_upwards [h] with n h
  rw [simpleExpr, run_ahead, hl]
  dsimp only
  rw [if_pos hk, run_bind_of_ok h]
  rfl

theorem AtomOf.comes (h : AtomOf us x) (hp : Passes r us r') :
    Comes simpleExpr r (.ok (some x)) r' := by
  cases h with
  | @leaf t x hx =>
    obtain ⟨r₁, hn, -, h₁⟩ := hp.next
    cases h₁
    refine .of_run_succ fun n => ?_
    rw [simpleExpr, run_ahead, hp.tok.1, hx]
    dsimp only
    rw [run_bind_of_ok hn]
    rfl
  | @unit o c ho hc =>
    obtain ⟨r₁, hn, -, h₁⟩ := hp.next
    obtain ⟨r₂, hn₁, hl, h₂⟩ := h₁.next
    cases h₂
    refine comes_simpleExpr_of_paren (hp.tok.1 ▸ ho) (.of_run_succ fun n => ?_)
    rw [parenExpr, run_ahead, run_bind_of_ok hn, run_ahead, h₁.tok.1, if_pos hc,
      run_bind_of_ok hn₁, run_behind, hl, hp.tok.1]
    rfl
  | @group o c us x ho hc hr =>
    obtain ⟨r₁, hn, -, h₁⟩ := hp.next
    obtain ⟨r₂, h₂, h₃⟩ := h₁.split
    have hs := hr r₁ r₂ h₂ (h₃.tok.1 ▸ hc)
    have hk : r₁.tok.kind ≠ .rparen := by
      intro hk
      cases (hs.unique (comes_seqExpr_of_mark hk)).1
    obtain ⟨r₃, he, hl, h₄⟩ := run_expect h₃ hc o.range.start (.expected .rparen)
    cases h₄
    refine comes_simpleExpr_of_paren (hp.tok.1 ▸ ho) (.deeper ?_)
    filter_upwards [hs] with n hs
    rw [parenExpr, run_ahead, run_bind_of_ok hn, run_ahead, if_neg hk, run_bind_of_ok hs, hp.tok.1,
      run_bind_of_ok he, run_behind, hl]
    rfl

theorem comes_simpleExpr_of_goesOn (h : Ending.call.goesOn r.tok = false) :
    Comes simpleExpr r (.ok none) r := by
  rw [Ending.goesOn, Bool.or_eq_false_iff, Option.isSome_eq_false_iff, Option.isNone_iff_eq_none,
    decide_eq_false_iff_not] at h
  exact comes_simpleExpr_none h.1 h.2

theorem ArgumentsOf.comes_more {fn : Expr} {xs : List Expr} (h : ArgumentsOf vs xs) :
    ∀ {r : Reader} {args : List Expr}, Passes r vs r' → Ending.call.goesOn r'.tok = false →
      Comes (application fn args) r (.ok (applied fn (args.reverse ++ xs) r'.last)) r' := by
  induction h with
  | nil =>
    intro r args hp hg
    cases hp
    refine .deeper ?_
    filter_upwards [comes_simpleExpr_of_goesOn hg] with n hs
    rw [application, run_bind_of_ok hs, applied, List.append_nil, List.isEmpty_reverse]
    dsimp only
    split <;> rfl
  | cons hx _ ih =>
    intro r args hp hg
    obtain ⟨r₁, h₁, h₂⟩ := hp.split
    rw [← List.singleton_append, ← List.append_assoc, ← List.reverse_cons]
    refine .deeper ?_
    filter_upwards [hx.comes h₁, ih h₂ hg] with n hx ih
    rw [application, run_bind_of_ok hx]
    exact ih

theorem ArgumentsOf.applied_last {xs : List Expr} (h : ArgumentsOf vs xs) (hp : Passes r vs r')
    (fn : Expr) : applied fn xs r'.last = applied fn xs (endOf vs) := by
  cases h with
  | nil => rfl
  | cons hx => rw [hp.last (List.append_ne_nil_of_left_ne_nil hx.ne_nil _)]

theorem ArgumentsOf.comes {fn : Expr} {xs : List Expr} (h : ArgumentsOf vs xs)
    (hp : Passes r vs r') (hg : Ending.call.goesOn r'.tok = false) :
    Comes (application fn []) r (.ok (applied fn xs (endOf vs))) r' := by
  rw [← h.applied_last hp]
  exact h.comes_more hp hg

theorem comes_index_inside {i : Expr} {d o c : Token} (ho : o.kind = .lparen)
    (hc : c.kind = .rparen) (hi : ReadsInside (mustExpr 0) us i)
    (hp : Passes r (d :: o :: (us ++ c :: vs)) r') :
    ∃ r₁, Comes index r (.ok i) r₁ ∧ r₁.last = c.range.stop ∧ Passes r₁ vs r' := by
  obtain ⟨r₁, hn, -, h₁⟩ := hp.next
  obtain ⟨r₂, he, -, h₂⟩ := run_expect h₁ ho r₁.tok.range.start .expectedIndex
  obtain ⟨r₃, h₃, h₄⟩ := h₂.split
  obtain ⟨r₄, he₄, hl, h₅⟩ := run_expect h₄ hc r₁.tok.range.start (.expected .rparen)
  refine ⟨r₄, .deeper ?_, hl, h₅⟩
  filter_upwards [hi r₂ r₃ h₃ (h₄.tok.1 ▸ hc)] with n hi
  rw [index, run_bind_of_ok hn, run_ahead, run_bind_of_ok he, run_bind_of_ok hi,
    run_bind_of_ok he₄]
  rfl

/-- Behind an element stands a dot or whatever stands behind all of them. -/
theorem ElementsOf.kind_ne (h : ElementsOf a vs x) (hp : Passes r vs r')
    (hg : Ending.element.goesOn r'.tok = false) : r.tok.kind ≠ .leftArrow := by
  cases h with
  | nil =>
    cases hp
    simp only [Ending.goesOn, Bool.or_eq_false_iff, decide_eq_false_iff_not] at hg
    exact hg.2
  | cons hd =>
    rw [hp.tok.1, hd]
    simp

theorem ElementsOf.comes (h : ElementsOf a vs x) : ∀ {r : Reader}, Passes r vs r' →
    Ending.element.goesOn r'.tok = false → Comes (elements a) r (.ok x) r' := by
  induction h with
  | nil a =>
    intro r hp hg
    cases hp
    simp only [Ending.goesOn, Bool.or_eq_false_iff, decide_eq_false_iff_not] at hg
    refine .of_run_succ fun n => ?_
    rw [elements, run_ahead, if_neg hg.1]
    rfl
  | cons hd ho hc hi h ih =>
    intro r hp hg
    obtain ⟨r₁, hx, hl, h₁⟩ := comes_index_inside ho hc hi hp
    refine .deeper ?_
    filter_upwards [hx, ih h₁ hg] with n hx ih
    rw [elements, run_ahead, hp.tok.1, if_pos hd, run_bind_of_ok hx, run_ahead,
      if_neg (h.kind_ne h₁ hg), run_behind, hl, ih]

/-! ### Operands -/

theorem sign?_cases {k : Kind} {op : UnaryOp} (h : sign? k = some op) :
    (op = .not ∧ k = .notWord) ∨ (op = .neg ∧ k = .operator .minus) ∨
      (op = .fneg ∧ k = .operator .minusDot) := by
  unfold sign? at h
  split at h <;> cases h <;> simp

theorem comes_operand_of_sign {op : UnaryOp} (h : sign? r.tok.kind = some op)
    (hu : Comes (unaryExpr op) r (.ok x) r') : Comes operand r (.ok (some x)) r' := by
  have hk := sign?_cases h
  have hs : Comes simpleExpr r (.ok none) r := by
    refine comes_simpleExpr_none ?_ ?_ <;> rcases hk with ⟨-, hk⟩ | ⟨-, hk⟩ | ⟨-, hk⟩ <;>
      simp [Token.leaf?, hk]
  refine .deeper ?_
  filter_upwards [hs, hu] with n hs hu
  rw [operand, run_bind_of_ok hs]
  dsimp only
  rw [run_ahead]
  rcases hk with ⟨rfl, hk⟩ | ⟨rfl, hk⟩ | ⟨rfl, hk⟩ <;> rw [hk] <;> dsimp only <;>
    rw [run_bind_of_ok hu] <;> rfl

theorem comes_operand_of_call {r₁ : Reader} (hs : Comes simpleExpr r (.ok (some a)) r₁)
    (hk : r₁.tok.kind ≠ .dot) (hx : Comes (application a []) r₁ (.ok x) r') :
    Comes operand r (.ok (some x)) r' := by
  refine .deeper ?_
  filter_upwards [hs, hx] with n hs hx
  rw [operand, run_bind_of_ok hs]
  dsimp only
  rw [run_ahead, if_neg hk, run_bind_of_ok hx]
  rfl

theorem comes_operand_of_elements {r₁ : Reader} (hs : Comes simpleExpr r (.ok (some a)) r₁)
    (hk : r₁.tok.kind = .dot) (hx : Comes (elements a) r₁ (.ok x) r') :
    Comes operand r (.ok (some x)) r' := by
  refine .deeper ?_
  filter_upwards [hs, hx] with n hs hx
  rw [operand, run_bind_of_ok hs]
  dsimp only
  rw [run_ahead, if_pos hk, run_bind_of_ok hx]
  rfl

theorem AtomOf.goesOn (h : AtomOf us x) (hp : Passes r us r') :
    Ending.call.goesOn r.tok = true ∧ r.tok.kind ≠ .dot := by
  cases h with
  | leaf hx =>
    rw [hp.tok.1]
    refine ⟨by simp [Ending.goesOn, hx], fun hk => ?_⟩
    simp [Token.leaf?, hk] at hx
  | unit ho | group ho =>
    rw [hp.tok.1]
    exact ⟨by simp [Ending.goesOn, ho], by simp [ho]⟩

/-- **The descent reads an operand as its tree.** -/
theorem OperandOf.comes {e : Ending} (h : OperandOf e us x) : ∀ {r : Reader}, Passes r us r' →
    e.goesOn r'.tok = false → Comes operand r (.ok (some x)) r' := by
  induction h with
  | atom ha =>
    intro r hp hg
    simp only [Ending.goesOn, Bool.or_eq_false_iff, decide_eq_false_iff_not] at hg
    have hc : Ending.call.goesOn r'.tok = false := by simp [Ending.goesOn, hg]
    exact comes_operand_of_call (ha.comes hp) hg.2 (ArgumentsOf.nil.comes (.refl r') hc)
  | call ha hv hne =>
    intro r hp hg
    obtain ⟨r₁, h₁, h₂⟩ := hp.split
    have hk : r₁.tok.kind ≠ .dot := by
      cases hv with
      | nil => exact absurd rfl hne
      | cons hx =>
        obtain ⟨_, h₃, _⟩ := h₂.split
        exact (hx.goesOn h₃).2
    exact comes_operand_of_call (ha.comes h₁) hk (hv.comes h₂ hg)
  | @make t vs args hk hv =>
    intro r hp hg
    obtain ⟨r₁, hn, -, h₁⟩ := hp.next
    have hs : Comes simpleExpr r (.ok none) r := by
      refine comes_simpleExpr_none ?_ ?_ <;> simp [hp.tok.1, Token.leaf?, hk]
    refine .deeper ?_
    filter_upwards [hs, hv.comes h₁ hg] with n hs hx
    rw [operand, run_bind_of_ok hs]
    dsimp only
    rw [run_ahead, hp.tok.1, hk]
    dsimp only
    rw [run_bind_of_ok hn, run_bind_of_ok hx]
    rfl
  | element ha hv hne =>
    intro r hp hg
    obtain ⟨r₁, h₁, h₂⟩ := hp.split
    have hk : r₁.tok.kind = .dot := by
      cases hv with
      | nil => exact absurd rfl hne
      | cons hd => rw [h₂.tok.1, hd]
    exact comes_operand_of_elements (ha.comes h₁) hk (hv.comes h₂ hg)
  | @signed e t op us x hs hx ih =>
    intro r hp hg
    obtain ⟨r₁, hn, -, h₁⟩ := hp.next
    refine comes_operand_of_sign (by rw [hp.tok.1]; exact hs) (.deeper ?_)
    filter_upwards [comes_mustExpr_of_stop (ih h₁ hg) (binding?_unary op r'.tok)] with n hm
    rw [unaryExpr, run_ahead, run_bind_of_ok hn, run_bind_of_ok hm, run_behind,
      h₁.last hx.ne_nil, hp.tok.1]
    rfl

end

end SmallMl.Grammar
