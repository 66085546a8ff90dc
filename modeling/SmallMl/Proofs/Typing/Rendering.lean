import SmallMl.Proofs.Typing.Making
import SmallMl.Proofs.Typing.Unambiguous

/-!
# What the text of a type tells

The text of a type is that of its expansion.  Let two types be complete: without free variables,
with nothing in them that contains itself, and with the elements and parameters that tuples and
functions need.  Then their texts are equal exactly if the two are the same up to currying: one
makes of each a type in which every function has the parameters of the function it results in as
well, and compares these (`Registry.render_eq_iff_flattened`).
-/

namespace SmallMl

open Relation (ReflTransGen)

/-- A tuple has at least two elements, a function at least one parameter. -/
def Cell.Ample : Cell → Prop
  | .tuple _ es => 2 ≤ es.length
  | .func _ ps _ => 1 ≤ ps.length
  | _ => True

instance : DecidablePred Cell.Ample
  | .basic _ | .var _ | .array _ _ => .isTrue trivial
  | .tuple _ es => inferInstanceAs (Decidable (2 ≤ es.length))
  | .func _ ps _ => inferInstanceAs (Decidable (1 ≤ ps.length))

/-- A finite cell has an ample expansion if all that it holds is ample. -/
theorem Resolutions.Lawful.ample_expand {σ : Resolutions} {c : Cell} (h : Lawful σ)
    (hf : σ.Finite c) (ha : ∀ d, ReflTransGen σ.Holds c d → d.Ample) : (expand σ c).Ample := by
  refine h.induct_finite (motive := fun c =>
    (∀ d, ReflTransGen σ.Holds c d → d.Ample) → (expand σ c).Ample) ?_ hf ha
  intro c hf ih ha
  have hheld : ∀ d, σ.Holds c d → (expand σ d).Ample := fun d hd =>
    ih d hd fun e he => ha e (.head hd he)
  have hc : c.Ample := ha c .refl
  cases c with
  | basic b =>
    rw [expand_basic]
    exact .basic b
  | var v =>
    cases hv : σ.lookup v with
    | none =>
      rw [expand_var_of_none hv]
      exact .var v
    | some d =>
      rw [h.expand_of_refers hf ⟨v, rfl, hv⟩]
      exact hheld d (.inr ⟨v, rfl, hv⟩)
  | array i e =>
    rw [expand_array]
    exact .array (hheld e (.inl (List.mem_singleton_self e)))
  | tuple i es =>
    rw [expand_tuple]
    exact .tuple (by rwa [List.length_map]) (List.forall_mem_map.2 fun e he => hheld e (.inl he))
  | func i ps r =>
    have hr : r ∈ (Cell.func i ps r).parts := by simp [Cell.parts]
    rw [expand_func]
    exact .func (List.ne_nil_of_length_pos (by rwa [List.length_map]))
      (List.forall_mem_map.2 fun p hp => hheld p (.inl (List.mem_append_left _ hp)))
      (hheld r (.inl hr))

namespace Registry

/-- The type has no free variable, nothing in it contains itself, and its tuples and functions have
the parts they need. -/
structure Complete (r : Registry) (c : Cell) : Prop where
  mem : c ∈ r.types
  finite : r.store.resolutions.Finite c
  resolved : r.store.isResolved c = true
  ample : ∀ d, ReflTransGen r.store.resolutions.Holds c d → d.Ample

variable {r : Registry} {c d : Cell}

namespace Complete

theorem ample_expand (h : r.Complete c) (hr : r.Sound) : (r.store.expand c).Ample :=
  hr.lawful.ample_expand h.finite h.ample

/-- **The text of a complete type determines it up to currying.** -/
theorem render_eq_iff (hc : r.Complete c) (hd : r.Complete d) (hr : r.Sound) :
    r.store.render c = r.store.render d ↔
      (r.store.expand c).flatten = (r.store.expand d).flatten := by
  rw [← Ty.chars_eq_iff (hc.ample_expand hr) (hd.ample_expand hr) hc.resolved hd.resolved]
  exact String.ofList_inj

end Complete

theorem HasForm.identical_iff {t u : Ty} (hc : r.HasForm c t) (hd : r.HasForm d u) (hr : r.Sound) :
    r.store.identical (some c) (some d) = true ↔ t = u := by
  rw [hr.identical_some_iff hc.mem hd.mem hc.finite hd.finite, hc.expand_eq, hd.expand_eq]

/-- **Texts are unambiguous up to currying.**  Let two types of the registry be complete.  Types
that are these two flattened can be made, and whenever there are such types, they are the same
exactly if the two are written in the same way. -/
theorem render_eq_iff_flattened (qs : List Request) {x y : Cell} (hx : (run qs).Complete x)
    (hy : (run qs).Complete y) :
    (∃ ms, (∀ q ∈ ms, q.makes = true) ∧
        ∃ x' y', (run (qs ++ ms)).HasForm x' ((run qs).store.expand x).flatten ∧
          (run (qs ++ ms)).HasForm y' ((run qs).store.expand y).flatten) ∧
      ∀ ms x' y', (run (qs ++ ms)).HasForm x' ((run qs).store.expand x).flatten →
        (run (qs ++ ms)).HasForm y' ((run qs).store.expand y).flatten →
          ((run qs).store.render x = (run qs).store.render y ↔
            (run (qs ++ ms)).store.identical (some x') (some y') = true) := by
  refine ⟨?made, fun ms x' y' hx' hy' => ?same⟩
  case made =>
    have hres : ∀ c, (run qs).Complete c →
        ((run qs).store.expand c).flatten.isResolved = true := fun c hc =>
      (Ty.isResolved_flatten _).trans hc.resolved
    obtain ⟨r₁, x', h₁, hx'⟩ := exists_made (hres x hx) (run qs)
    obtain ⟨r₂, y', h₂, hy'⟩ := exists_made (hres y hy) r₁
    obtain ⟨ms, hms, rfl⟩ := h₁.trans h₂
    rw [← run_append] at h₂ hy'
    exact ⟨ms, hms, x', y', hx'.of_extends h₂.extends_to, hy'⟩
  case same =>
    rw [hx.render_eq_iff hy (sound_run qs), hx'.identical_iff hy' (sound_run _)]

/-- A function to a variable that was resolved to a function, and two functions of two
parameters. -/
def functions : List Request :=
  [.basic .int, .basic .bool, .var, .func [0] 2, .func [0] 1, .func [0, 0] 1, .func [0, 0] 1,
    .resolve 2 4]

theorem finite_functions (c : Cell) : (run functions).store.resolutions.Finite c :=
  (sound_run functions).lawful.finite_of_forall_mem (List.forall_mem_cons.2 ⟨rfl, nofun⟩) c

theorem complete_functions {i : Nat} {c : Cell} (hc : (run functions).types[i]? = some c)
    (hres : (run functions).store.isResolved c = true) : (run functions).Complete c where
  mem := List.mem_of_getElem? hc
  finite := finite_functions c
  resolved := hres
  ample d hd := by
    have hall : ∀ d ∈ (run functions).types, d.Ample := by decide
    exact hall d ((sound_run functions).mem_of_reaches (List.mem_of_getElem? hc) hd)

/-- The text is that of a function of two parameters, and so is the flattened type. -/
theorem render_eq_iff_flattened_functions :
    (run functions).Complete (.func 1 [.basic .int] (.var 0)) ∧
      (run functions).Complete (.func 3 [.basic .int, .basic .int] (.basic .bool)) ∧
      (run functions).HasForm (.func 4 [.basic .int, .basic .int] (.basic .bool))
        ((run functions).store.expand (.func 1 [.basic .int] (.var 0))).flatten ∧
      (run functions).store.render (.func 1 [.basic .int] (.var 0)) =
        (run functions).store.render (.func 3 [.basic .int, .basic .int] (.basic .bool)) := by
  have hx : (run functions).Complete (.func 1 [.basic .int] (.var 0)) :=
    complete_functions (i := 3) rfl rfl
  have hy : (run functions).Complete (.func 3 [.basic .int, .basic .int] (.basic .bool)) :=
    complete_functions (i := 5) rfl rfl
  have hform : (run functions).HasForm (.func 4 [.basic .int, .basic .int] (.basic .bool))
      ((run functions).store.expand (.func 1 [.basic .int] (.var 0))).flatten :=
    ⟨List.mem_of_getElem? (i := 6) rfl, finite_functions _, rfl⟩
  have hself : (run functions).HasForm (.func 3 [.basic .int, .basic .int] (.basic .bool))
      ((run functions).store.expand
        (.func 3 [.basic .int, .basic .int] (.basic .bool))).flatten :=
    ⟨List.mem_of_getElem? (i := 5) rfl, finite_functions _, rfl⟩
  exact ⟨hx, hy, hform,
    ((render_eq_iff_flattened functions hx hy).2 [] _ _ hform hself).2 rfl⟩

end Registry

end SmallMl
