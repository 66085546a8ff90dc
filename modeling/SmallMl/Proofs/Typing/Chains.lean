import SmallMl.Typing.Store
import Mathlib.Logic.Relation

/-!
# Chains of resolved variables

A resolved variable refers to the type it was resolved to, which may be a resolved variable again.
Resolutions are lawful if each was of a variable that had none, to a type that did not come down to
that variable.  Along lawful resolutions every chain of references ends, at the underlying type
(`Resolutions.Lawful.reaches_underlying`, `Resolutions.Lawful.not_refers_underlying`), so no chain
comes back to where it started (`Resolutions.Lawful.not_transGen_refers`).

`Store.resolve` keeps resolutions lawful (`Store.lawful_resolve`).  What it changes is the
underlying type of those types that came down to the variable, and of no others
(`Store.underlying_resolve_ne_iff`).
-/

namespace SmallMl

open Relation (ReflTransGen TransGen)

@[simp] theorem Cell.same_self (c : Cell) : c.same c = true := by
  cases c <;> simp [same]

@[simp] theorem Cell.same_var {c : Cell} {v : Nat} : c.same (var v) = true ↔ c = var v := by
  cases c <;> simp [same]

/-- On a chain without forks a place where the chain ends is not reached from a place that the
chain comes back to. -/
theorem not_transGen_of_reaches {α : Type} {r : α → α → Prop}
    (hr : ∀ a b c, r a b → r a c → b = c) {a e : α} (he : ∀ b, ¬ r e b)
    (h : ReflTransGen r a e) : ¬ TransGen r a a := by
  induction h using ReflTransGen.head_induction_on with
  | refl =>
    intro hc
    obtain ⟨b, hb, -⟩ := TransGen.head'_iff.1 hc
    exact he b hb
  | @head a b hab _ ih =>
    intro hc
    obtain ⟨d, had, hda⟩ := TransGen.head'_iff.1 hc
    obtain rfl := hr a b d hab had
    exact ih (.tail' hda hab)

namespace Resolutions

/-- The cell is a variable that was resolved to `d`. -/
def Refers (σ : Resolutions) (c d : Cell) : Prop := ∃ v, c = .var v ∧ σ.lookup v = some d

/-- Each resolution was of a variable that had none, to a type that did not come down to it. -/
inductive Lawful : Resolutions → Prop
  | nil : Lawful []
  | cons {σ : Resolutions} {v : Nat} {s : Cell} : σ.lookup v = none →
      underlying σ s ≠ .var v → Lawful σ → Lawful ((v, s) :: σ)

variable {σ : Resolutions} {c d s : Cell} {v w : Nat}

/-! ### The underlying type -/

theorem underlying_cons_of_eq (h : underlying σ c = .var v) :
    underlying ((v, s) :: σ) c = underlying σ s := by
  simp [underlying, h]

theorem underlying_cons_of_ne (h : underlying σ c ≠ .var v) :
    underlying ((v, s) :: σ) c = underlying σ c := by
  rw [underlying]
  cases hu : underlying σ c with
  | var w =>
    have hw : w ≠ v := by
      rintro rfl
      exact h hu
    simp [hw]
  | _ => rfl

theorem lookup_cons_of_ne (h : w ≠ v) : List.lookup w ((v, s) :: σ) = List.lookup w σ := by
  rw [List.lookup_cons, beq_false_of_ne h]

theorem underlying_var_of_none (h : σ.lookup v = none) : underlying σ (.var v) = .var v := by
  induction σ with
  | nil => rfl
  | cons b σ ih =>
    obtain ⟨u, s⟩ := b
    have hv : v ≠ u := by
      rintro rfl
      simp at h
    have hu : underlying σ (.var v) = .var v := ih (by rwa [lookup_cons_of_ne hv] at h)
    rw [underlying_cons_of_ne (by simpa [hu] using hv), hu]

theorem Refers.unique {e : Cell} (hd : σ.Refers c d) (he : σ.Refers c e) : d = e := by
  obtain ⟨v, rfl, hv⟩ := hd
  obtain ⟨w, hw, he⟩ := he
  cases hw
  exact Option.some.inj (hv.symm.trans he)

theorem Refers.cons (hv : σ.lookup v = none) (h : σ.Refers c d) :
    Refers ((v, s) :: σ) c d := by
  obtain ⟨w, rfl, hw⟩ := h
  refine ⟨w, rfl, ?_⟩
  rwa [lookup_cons_of_ne]
  rintro rfl
  rw [hv] at hw
  cases hw

theorem refers_cons_self : Refers ((v, s) :: σ) (.var v) s := ⟨v, rfl, by simp⟩

namespace Lawful

/-- **An underlying type is no resolved variable.** -/
theorem lookup_of_underlying (h : Lawful σ) (hc : underlying σ c = .var w) :
    σ.lookup w = none := by
  induction h generalizing c with
  | nil => rfl
  | @cons σ v s hv hs _ ih =>
    by_cases hu : underlying σ c = .var v
    · rw [underlying_cons_of_eq hu] at hc
      have hw : w ≠ v := by
        rintro rfl
        exact hs hc
      rw [lookup_cons_of_ne hw, ih hc]
    · rw [underlying_cons_of_ne hu] at hc
      have hw : w ≠ v := by
        rintro rfl
        exact hu hc
      rw [lookup_cons_of_ne hw, ih hc]

/-- **A resolved variable has the underlying type of what it was resolved to.** -/
theorem underlying_of_refers (h : Lawful σ) (hr : σ.Refers c d) :
    underlying σ c = underlying σ d := by
  obtain ⟨w, rfl, hd⟩ := hr
  induction h generalizing d with
  | nil => cases hd
  | @cons σ v s hv hs _ ih =>
    by_cases hw : w = v
    · subst hw
      obtain rfl : s = d := by simpa using hd
      rw [underlying_cons_of_eq (underlying_var_of_none hv), underlying_cons_of_ne hs]
    · have hwd : underlying σ (.var w) = underlying σ d := ih (by rwa [lookup_cons_of_ne hw] at hd)
      by_cases hu : underlying σ d = .var v
      · rw [underlying_cons_of_eq hu, underlying_cons_of_eq (hwd.trans hu)]
      · rw [underlying_cons_of_ne hu, underlying_cons_of_ne (hwd ▸ hu), hwd]

/-- **The chain from a type comes to its underlying type.** -/
theorem reaches_underlying (h : Lawful σ) (c : Cell) :
    ReflTransGen σ.Refers c (underlying σ c) := by
  induction h generalizing c with
  | nil => exact .refl
  | @cons σ v s hv hs _ ih =>
    have hmono : ∀ a b, ReflTransGen σ.Refers a b → ReflTransGen (Refers ((v, s) :: σ)) a b :=
      ReflTransGen.mono fun _ _ => Refers.cons hv
    by_cases hu : underlying σ c = .var v
    · rw [underlying_cons_of_eq hu]
      have hcv := hmono _ _ (ih c)
      rw [hu] at hcv
      exact (hcv.tail refers_cons_self).trans (hmono _ _ (ih s))
    · rw [underlying_cons_of_ne hu]
      exact hmono _ _ (ih c)

/-- The chain from a type ends at its underlying type. -/
theorem not_refers_underlying (h : Lawful σ) (c d : Cell) : ¬ σ.Refers (underlying σ c) d := by
  rintro ⟨w, hw, hd⟩
  rw [h.lookup_of_underlying hw] at hd
  cases hd

/-- **No chain of references comes back to where it started.** -/
theorem not_transGen_refers (h : Lawful σ) (c : Cell) : ¬ TransGen σ.Refers c c :=
  not_transGen_of_reaches (r := σ.Refers) (fun _ _ _ => Refers.unique)
    (h.not_refers_underlying c) (h.reaches_underlying c)

end Lawful

end Resolutions

/-! ### Resolving a variable -/

namespace Store

open Resolutions

variable {s t : Store} {c d : Cell} {v : Nat}

theorem resolve_eq_ok_iff :
    s.resolve v c = .ok t ↔ s.target? v = none ∧ s.underlying c ≠ .var v ∧
      t = { s with resolutions := (v, c) :: s.resolutions } := by
  rw [resolve]
  cases hv : s.target? v with
  | some d => simp
  | none =>
    by_cases hc : s.underlying c = .var v
    · simp [hc]
    · have hs : (s.underlying c).same (.var v) = false :=
        Bool.eq_false_iff.2 (mt Cell.same_var.1 hc)
      simp only [hs, Option.isSome_none, Bool.false_eq_true, if_false, Except.ok.injEq, ne_eq, hc,
        not_false_eq_true, true_and]
      exact eq_comm

theorem resolve_eq_error_iff {e : Misuse} :
    s.resolve v c = .error e ↔
      (e = .resolvedTwice ∧ (s.target? v).isSome = true) ∨
        (e = .resolvedToItself ∧ s.target? v = none ∧ s.underlying c = .var v) := by
  rw [resolve]
  cases hv : s.target? v with
  | some d => simp [eq_comm]
  | none =>
    by_cases hc : s.underlying c = .var v
    · simp only [hc, Option.isSome_none, Bool.false_eq_true, if_false, Cell.same_self, if_true,
        Except.error.injEq, and_false, false_or, and_true, eq_comm]
    · simp [hc]

theorem target?_resolve (hr : s.resolve v c = .ok t) (w : Nat) :
    t.target? w = if w = v then some c else s.target? w := by
  obtain ⟨_, _, rfl⟩ := resolve_eq_ok_iff.1 hr
  by_cases hw : w = v
  · simp [target?, hw]
  · rw [if_neg hw]
    exact lookup_cons_of_ne hw

theorem lawful_resolve (h : s.resolutions.Lawful) (hr : s.resolve v c = .ok t) :
    t.resolutions.Lawful := by
  obtain ⟨hv, hc, rfl⟩ := resolve_eq_ok_iff.1 hr
  exact .cons hv hc h

/-- **What came down to the variable comes down to what the target came down to.** -/
theorem underlying_resolve_of_eq (hr : s.resolve v c = .ok t) (hd : s.underlying d = .var v) :
    t.underlying d = s.underlying c := by
  obtain ⟨_, _, rfl⟩ := resolve_eq_ok_iff.1 hr
  exact underlying_cons_of_eq hd

theorem underlying_resolve_of_ne (hr : s.resolve v c = .ok t) (hd : s.underlying d ≠ .var v) :
    t.underlying d = s.underlying d := by
  obtain ⟨_, _, rfl⟩ := resolve_eq_ok_iff.1 hr
  exact underlying_cons_of_ne hd

theorem underlying_resolve_ne_iff (hr : s.resolve v c = .ok t) :
    t.underlying d ≠ s.underlying d ↔ s.underlying d = .var v := by
  refine ⟨fun h => Classical.byContradiction fun hd => ?_, fun hd => ?_⟩
  · exact h (underlying_resolve_of_ne hr hd)
  · rw [underlying_resolve_of_eq hr hd, hd]
    exact (resolve_eq_ok_iff.1 hr).2.1

end Store

end SmallMl
