import SmallMl.Proofs.Typing.Sameness

/-!
# What resolving a variable keeps

The expansion of a type after a resolution is the expansion before it, with the target's expansion
in the place of the variable (`Store.expand_resolve`).  So types that were the same stay the same,
and a type without free variables stays as it is: its text, its letter and what it is the same as
(`Registry.resolve_refines`).
-/

namespace SmallMl

open Relation (TransGen)

namespace Store

variable {s t : Store} {c d : Cell} {v : Nat}

theorem expand_resolve (h : s.resolve v c = .ok t) (d : Cell) :
    t.expand d = Ty.subst v (s.expand c) (s.expand d) := by
  obtain ⟨-, -, rfl⟩ := resolve_eq_ok_iff.1 h
  exact Resolutions.expand_cons

/-- **A type without free variables keeps its expansion.** -/
theorem expand_resolve_of_isResolved (h : s.resolve v c = .ok t) (hd : s.isResolved d = true) :
    t.expand d = s.expand d := by
  rw [expand_resolve h, Ty.subst_of_not_occurs (Ty.not_occurs_of_isResolved hd)]

theorem contains_resolve (h : s.resolve v c = .ok t) {a b : Cell} (hab : s.Contains a b) :
    t.Contains a b := by
  obtain ⟨hv, -, rfl⟩ := resolve_eq_ok_iff.1 h
  exact TransGen.mono (fun _ _ => Resolutions.Holds.cons hv) _ _ hab

/-- A type without free variables does not come down to one. -/
theorem underlying_ne_of_isResolved (hs : s.resolutions.Lawful) (hf : s.resolutions.Finite d)
    (hd : s.isResolved d = true) (v : Nat) : s.underlying d ≠ .var v := by
  intro hu
  have hv : s.target? v = none := hs.lookup_of_underlying hu
  have he : s.expand d = .var v := by
    have heq : s.expand (s.underlying d) = s.expand d := hs.expand_underlying hf
    rw [← heq, hu]
    exact Resolutions.expand_var_of_none hv
  rw [isResolved, he] at hd
  cases hd

theorem letter_resolve (hs : s.resolutions.Lawful) (hf : s.resolutions.Finite d)
    (h : s.resolve v c = .ok t) (hd : s.isResolved d = true) : t.letter d = s.letter d := by
  rw [letter, letter, underlying_resolve_of_ne h (underlying_ne_of_isResolved hs hf hd v)]

end Store

namespace Registry

/-- **Resolving a variable only refines.**  Let a variable be resolved so that no type of the
registry contains itself afterwards.  Types that were the same stay the same.  A type without free
variables stays one, with its text and its letter, and two such types that were not the same do not
become it. -/
theorem resolve_refines (qs : List Request) {v : Nat} {c : Cell} {t : Store}
    (hc : c ∈ (run qs).types) (ht : (run qs).store.resolve v c = .ok t)
    (hf : IsFinite ⟨t, (run qs).types⟩) :
    (∀ x y, (run qs).Knows x → (run qs).Knows y → (run qs).store.identical x y = true →
        t.identical x y = true) ∧
      (∀ d ∈ (run qs).types, (run qs).store.isResolved d = true →
        t.isResolved d = true ∧ t.render d = (run qs).store.render d ∧
          t.letter d = (run qs).store.letter d) ∧
      ∀ d ∈ (run qs).types, ∀ e ∈ (run qs).types, (run qs).store.isResolved d = true →
        (run qs).store.isResolved e = true →
          (run qs).store.identical (some d) (some e) = false →
            t.identical (some d) (some e) = false := by
  have h := sound_run qs
  have h' : Sound ⟨t, (run qs).types⟩ := h.resolved hc ht
  have hfb : (run qs).IsFinite := fun d hd hdd => hf d hd (Store.contains_resolve ht hdd)
  refine ⟨?same, ?resolved, ?different⟩
  case same =>
    intro x y hx hy hxy
    refine (h'.identical_eq_true_iff hf hx hy).2 ?_
    have hmap : ∀ z : Option Cell, z.map t.expand =
        (z.map (run qs).store.expand).map (Ty.subst v ((run qs).store.expand c)) := by
      intro z
      rw [Option.map_map]
      exact congrArg (z.map ·) (funext (Store.expand_resolve ht))
    rw [hmap x, hmap y, (h.identical_eq_true_iff hfb hx hy).1 hxy]
  case resolved =>
    intro d hd hr
    have he := Store.expand_resolve_of_isResolved ht hr
    refine ⟨?_, ?_, Store.letter_resolve h.lawful (h.finite hfb d) ht hr⟩
    · rwa [Store.isResolved, he]
    · rw [Store.render, Store.render, he]
  case different =>
    intro d hd e he hdr her hde
    rw [Bool.eq_false_iff, ne_eq] at hde ⊢
    rw [h'.identical_some_iff hd he (h'.finite hf d) (h'.finite hf e),
      Store.expand_resolve_of_isResolved ht hdr, Store.expand_resolve_of_isResolved ht her]
    rwa [h.identical_some_iff hd he (h.finite hfb d) (h.finite hfb e)] at hde

/-- A variable, another that was resolved to it, an array of each and an array of `int`. -/
def openArrays : List Request :=
  [.basic .int, .var, .var, .array 1, .array 2, .array 0, .resolve 2 1]

/-- The store after the variable was resolved to the array of `int`. -/
def closedStore : Store := ⟨5, [(0, .array 4 (.basic .int)), (1, .var 0)]⟩

theorem resolve_refines_openArrays :
    (run openArrays).store.resolve 0 (.array 4 (.basic .int)) = .ok closedStore ∧
      IsFinite ⟨closedStore, (run openArrays).types⟩ ∧
      (run openArrays).store.identical (some (.array 2 (.var 0))) (some (.array 3 (.var 1))) =
        true ∧
      closedStore.identical (some (.array 2 (.var 0))) (some (.array 3 (.var 1))) = true ∧
      closedStore.render (.array 4 (.basic .int)) =
        (run openArrays).store.render (.array 4 (.basic .int)) := by
  have hok : (run openArrays).store.resolve 0 (.array 4 (.basic .int)) = .ok closedStore := rfl
  have hmem : .array 4 (.basic .int) ∈ (run openArrays).types := List.mem_of_getElem? (i := 5) rfl
  have hfin : IsFinite ⟨closedStore, (run openArrays).types⟩ :=
    ((sound_run openArrays).resolved hmem hok).isFinite_of_forall_mem
      (List.forall_mem_cons.2 ⟨rfl, List.forall_mem_cons.2 ⟨rfl, nofun⟩⟩)
  have h := resolve_refines openArrays hmem hok hfin
  have hsame : (run openArrays).store.identical (some (.array 2 (.var 0)))
      (some (.array 3 (.var 1))) = true := rfl
  exact ⟨hok, hfin, hsame,
    h.1 _ _ (knows_of_getElem? (i := 3) rfl) (knows_of_getElem? (i := 4) rfl) hsame,
    (h.2.1 _ hmem rfl).2.1⟩

end Registry

end SmallMl
