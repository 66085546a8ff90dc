import SmallMl.Proofs.Grammar.Descent

/-!
# The depth of the calls

A function of the descent that is told how deep its calls may go either gives up or has an outcome
that no greater depth changes (`Descent.Deepens`).  So an outcome at any depth is what the function
comes to (`Descent.Deepens.comes`), and there is nothing to be said about single depths.

The proof is one induction on the depth.  The functions call each other with one less, so each of
them is only compared with itself: the same steps, where the calls approximate each other.
-/

namespace SmallMl.Grammar

namespace Reading

variable {α β : Type}

/-- Every outcome of `m` is an outcome of `m'`. -/
def Approximates (m m' : Reading α) : Prop := ∀ r x, m.run r = some x → m'.run r = some x

namespace Approximates

variable {m m' : Reading α} {f f' : α → Reading β}

theorem refl (m : Reading α) : Approximates m m := fun _ _ h => h

theorem tooDeep (m : Reading α) : Approximates tooDeep m := by
  intro r x h
  cases h

theorem bind (h : Approximates m m') (hf : ∀ a, Approximates (f a) (f' a)) :
    Approximates (m >>= f) (m' >>= f') := by
  intro r x hx
  cases hm : m.run r with
  | none =>
    have hn : (m >>= f).run r = none := by
      change (m r >>= _) = _
      rw [show m r = none from hm]
      rfl
    rw [hn] at hx
    cases hx
  | some y =>
    obtain ⟨o | a, r'⟩ := y
    · rw [run_bind_of_error hm] at hx
      rw [run_bind_of_error (h _ _ hm), hx]
    · rw [run_bind_of_ok hm] at hx
      rw [run_bind_of_ok (h _ _ hm)]
      exact hf a _ _ hx

theorem after (m : Reading α) (hf : ∀ a, Approximates (f a) (f' a)) :
    Approximates (m >>= f) (m >>= f') := (refl m).bind hf

theorem ite {c : Prop} [Decidable c] {k k' : Reading α} (h : Approximates m m')
    (hk : Approximates k k') : Approximates (if c then m else k) (if c then m' else k') := by
  by_cases hc : c
  · rwa [if_pos hc, if_pos hc]
  · rwa [if_neg hc, if_neg hc]

end Approximates

end Reading

namespace Descent

open Filter Reading

variable {α : Type}

/-- One call more changes no outcome. -/
def DeepensAt (n : Nat) (m : Descent α) : Prop := Approximates (m n) (m (n + 1))

/-- No depth changes the outcome at a smaller one. -/
def Deepens (m : Descent α) : Prop := ∀ n, DeepensAt n m

/-- **The outcome at any depth is what the program comes to.** -/
theorem Deepens.comes {m : Descent α} (hm : Deepens m) {n : Nat} {o : Except Stop α}
    {r r' : Reader} (h : (m n).run r = some (o, r')) : Comes m r o r' := by
  refine eventually_atTop.2 ⟨n, fun k hk => ?_⟩
  induction k, hk using Nat.le_induction with
  | base => exact h
  | succ k _ ih => exact hm k _ _ ih

/-! ### Types and binders -/

theorem deepens_suffixes (type : Ty) : Deepens (suffixes type) := by
  intro n
  induction n generalizing type with
  | zero => exact .tooDeep _
  | succ n ih =>
    rw [DeepensAt, suffixes, suffixes]
    exact .after _ fun _ => .ite (.after _ fun _ => ih _) (.refl _)

theorem deepens_typeExpr : Deepens typeExpr := by
  intro n
  refine .after _ fun t => .ite ?_ (.refl _)
  cases Basic.ofName? t.lit with
  | some b => exact .after _ fun _ => deepens_suffixes _ n
  | none => exact .refl _

theorem deepens_binder (c : Complaint) : Deepens (binder c) := by
  intro n
  refine .after _ fun t => ?_
  cases t.kind with
  | lparen =>
    refine .after _ fun _ => .after _ fun _ => .after _ fun _ => .after _ fun _ => ?_
    exact (deepens_typeExpr n).bind fun _ => .refl _
  | _ => exact .refl _

theorem deepens_params (h : FunctionHead) : Deepens (params h) := by
  intro n
  induction n generalizing h with
  | zero => exact .tooDeep _
  | succ n ih =>
    rw [DeepensAt, params, params]
    exact .after _ fun _ => .ite ((deepens_binder _ n).bind fun _ => ih _) (.refl _)

theorem deepens_resultType : Deepens resultType := by
  intro n
  exact .after _ fun _ => .ite (.after _ fun _ => (deepens_typeExpr n).bind fun _ => .refl _)
    (.refl _)

theorem deepens_functionHead (start : Location) : Deepens (functionHead start) := by
  intro n
  refine .after _ fun _ => .after _ fun _ => (deepens_params _ n).bind fun _ => ?_
  exact .ite (.refl _) ((deepens_resultType n).bind fun _ => .refl _)

/-! ### Expressions -/

/-- One call more changes no outcome of the functions that read expressions. -/
structure ExpressionsDeepen (n : Nat) : Prop where
  mustExpr : ∀ prec, DeepensAt n (mustExpr prec)
  expr : ∀ prec, DeepensAt n (expr prec)
  operators : ∀ prec x, DeepensAt n (operators prec x)
  operation : ∀ prec x, DeepensAt n (operation prec x)
  operand : DeepensAt n operand
  simpleExpr : DeepensAt n simpleExpr
  parenExpr : DeepensAt n parenExpr
  elements : ∀ a, DeepensAt n (elements a)
  index : DeepensAt n index
  application : ∀ fn args, DeepensAt n (application fn args)
  unaryExpr : ∀ op, DeepensAt n (unaryExpr op)
  ifExpr : DeepensAt n ifExpr
  letExpr : DeepensAt n letExpr
  letRecExpr : ∀ start, DeepensAt n (letRecExpr start)
  inExpr : DeepensAt n inExpr
  seqExpr : DeepensAt n seqExpr

theorem expressionsDeepen_zero : ExpressionsDeepen 0 where
  mustExpr _ := .tooDeep _
  expr _ := .tooDeep _
  operators _ _ := .tooDeep _
  operation _ _ := .tooDeep _
  operand := .tooDeep _
  simpleExpr := .tooDeep _
  parenExpr := .tooDeep _
  elements _ := .tooDeep _
  index := .tooDeep _
  application _ _ := .tooDeep _
  unaryExpr _ := .tooDeep _
  ifExpr := .tooDeep _
  letExpr := .tooDeep _
  letRecExpr _ := .tooDeep _
  inExpr := .tooDeep _
  seqExpr := .tooDeep _

theorem expressionsDeepen_succ {n : Nat} (ih : ExpressionsDeepen n) :
    ExpressionsDeepen (n + 1) where
  mustExpr prec := by
    rw [DeepensAt, mustExpr, mustExpr]
    exact (ih.expr prec).bind fun _ => .refl _
  expr prec := by
    rw [DeepensAt, expr, expr]
    refine ih.operand.bind fun o => ?_
    cases o with
    | some x => exact (ih.operators prec x).bind fun _ => .refl _
    | none => exact .refl _
  operators prec x := by
    rw [DeepensAt, operators, operators]
    refine (ih.operation prec x).bind fun o => ?_
    cases o with
    | some y => exact ih.operators prec y
    | none => exact .refl _
  operation prec x := by
    rw [DeepensAt, operation, operation]
    refine .after _ fun t => ?_
    cases binding? prec t with
    | some op => exact .after _ fun _ => (ih.mustExpr _).bind fun _ => .refl _
    | none => exact .refl _
  operand := by
    rw [DeepensAt, operand, operand]
    refine ih.simpleExpr.bind fun o => ?_
    cases o with
    | some x =>
      refine .after _ fun _ => .ite ((ih.elements x).bind fun _ => .refl _) ?_
      exact (ih.application x []).bind fun _ => .refl _
    | none =>
      refine .after _ fun t => ?_
      split
      · exact (ih.unaryExpr _).bind fun _ => .refl _
      · exact (ih.unaryExpr _).bind fun _ => .refl _
      · exact (ih.unaryExpr _).bind fun _ => .refl _
      · exact ih.ifExpr.bind fun _ => .refl _
      · exact ih.letExpr.bind fun _ => .refl _
      · exact .after _ fun _ => (ih.application _ _).bind fun _ => .refl _
      · exact .refl _
  simpleExpr := by
    rw [DeepensAt, simpleExpr, simpleExpr]
    refine .after _ fun t => ?_
    cases t.leaf? with
    | some x => exact .refl _
    | none => exact .ite (ih.parenExpr.bind fun _ => .refl _) (.refl _)
  parenExpr := by
    rw [DeepensAt, parenExpr, parenExpr]
    refine .after _ fun _ => .after _ fun _ => .after _ fun _ => .ite (.refl _) ?_
    exact ih.seqExpr.bind fun _ => .refl _
  elements a := by
    rw [DeepensAt, elements, elements]
    refine .after _ fun _ => .ite (ih.index.bind fun i => .after _ fun _ => .ite ?_ ?_) (.refl _)
    · exact .after _ fun _ => (ih.mustExpr 0).bind fun _ => .refl _
    · exact .after _ fun _ => ih.elements _
  index := by
    rw [DeepensAt, index, index]
    refine .after _ fun _ => .after _ fun _ => .after _ fun _ => ?_
    exact (ih.mustExpr 0).bind fun _ => .refl _
  application fn args := by
    rw [DeepensAt, application, application]
    refine ih.simpleExpr.bind fun o => ?_
    cases o with
    | some x => exact ih.application fn _
    | none => exact .refl _
  unaryExpr op := by
    rw [DeepensAt, unaryExpr, unaryExpr]
    exact .after _ fun _ => .after _ fun _ => (ih.mustExpr _).bind fun _ => .refl _
  ifExpr := by
    rw [DeepensAt, ifExpr, ifExpr]
    refine .after _ fun _ => .after _ fun _ => (ih.mustExpr 0).bind fun _ => ?_
    refine .after _ fun _ => .after _ fun _ => (ih.mustExpr 0).bind fun _ => ?_
    refine .after _ fun _ => .ite (.after _ fun _ => ?_) (.refl _)
    exact (ih.mustExpr 0).bind fun _ => .refl _
  letExpr := by
    rw [DeepensAt, letExpr, letExpr]
    refine .after _ fun _ => .after _ fun _ => .after _ fun _ => .ite ?_ ?_
    · exact .after _ fun _ => ih.letRecExpr _
    · refine (deepens_binder _ n).bind fun _ => .after _ fun _ => ?_
      exact (ih.mustExpr 0).bind fun _ => ih.inExpr.bind fun _ => .refl _
  letRecExpr start := by
    rw [DeepensAt, letRecExpr, letRecExpr]
    refine (deepens_functionHead start n).bind fun _ => .after _ fun _ => ?_
    exact (ih.mustExpr 0).bind fun _ => ih.inExpr.bind fun _ => .refl _
  inExpr := by
    rw [DeepensAt, inExpr, inExpr]
    exact .after _ fun _ => .ite (.after _ fun _ => ih.seqExpr.bind fun _ => .refl _) (.refl _)
  seqExpr := by
    rw [DeepensAt, seqExpr, seqExpr]
    refine (ih.mustExpr 0).bind fun _ => .after _ fun _ => .ite ?_ (.refl _)
    refine .after _ fun _ => .after _ fun _ => .ite (.refl _) ?_
    exact ih.seqExpr.bind fun _ => .refl _

theorem expressionsDeepen (n : Nat) : ExpressionsDeepen n := by
  induction n with
  | zero => exact expressionsDeepen_zero
  | succ n ih => exact expressionsDeepen_succ ih

/-! ### Programs -/

theorem deepens_item : Deepens item := by
  intro n
  refine .after _ fun _ => .ite (.refl _) ?_
  exact ((expressionsDeepen n).mustExpr 0).bind fun _ => .refl _

theorem deepens_items (xs : List Expr) : Deepens (items xs) := by
  intro n
  induction n generalizing xs with
  | zero => exact .tooDeep _
  | succ n ih =>
    rw [DeepensAt, items, items]
    refine .after _ fun _ => .ite (.refl _) ((deepens_item n).bind fun o => ?_)
    cases o with
    | some x => exact ih _
    | none => exact ih _

/-- **A program that is read with some depth is read alike with any greater depth.** -/
theorem deepens_program : Deepens program := by
  intro n
  exact .after _ fun _ => (deepens_items _ n).bind fun _ => .refl _

end Descent

end SmallMl.Grammar
