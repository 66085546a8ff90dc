import SmallMl.Proofs.Typing.Sameness

/-!
# Types that can be made

Every type without variables can be made in every registry, by requests that resolve no variable
(`Registry.exists_made`).  Its parts are made first, one after the other; what is made later keeps
the types there are, and what their variables are replaced by (`Registry.Extends`).
-/

namespace SmallMl

/-- The request resolves no variable. -/
def Request.makes : Request → Bool
  | .resolve _ _ => false
  | _ => true

namespace Registry

/-- The types of `r` are types of `r'`, and the same variables are resolved. -/
structure Extends (r r' : Registry) : Prop where
  types_subset : r.types ⊆ r'.types
  resolutions_eq : r'.store.resolutions = r.store.resolutions

/-- Requests that resolve no variable lead from `r` to `r'`. -/
def Makes (r r' : Registry) : Prop :=
  ∃ qs : List Request, (∀ q ∈ qs, q.makes = true) ∧ qs.foldl step r = r'

/-- The cell is a finite type of the registry, and `t` is the cell with all its resolved variables
replaced. -/
structure HasForm (r : Registry) (c : Cell) (t : Ty) : Prop where
  mem : c ∈ r.types
  finite : r.store.resolutions.Finite c
  expand_eq : r.store.expand c = t

variable {r r' r'' : Registry} {c : Cell} {t : Ty} {ts : List Ty}

/-! ### Registries with more types -/

theorem Extends.rfl : r.Extends r := ⟨List.Subset.refl _, Eq.refl _⟩

theorem Extends.trans (h : r.Extends r') (h' : r'.Extends r'') : r.Extends r'' :=
  ⟨List.Subset.trans h.types_subset h'.types_subset,
    h'.resolutions_eq.trans h.resolutions_eq⟩

theorem extends_add {s : Store} (h : s.resolutions = r.store.resolutions) :
    r.Extends (r.add (c, s)) :=
  ⟨List.subset_append_left _ _, h⟩

theorem extends_step {q : Request} (h : q.makes = true) : r.Extends (r.step q) := by
  cases q with
  | resolve i j => cases h
  | array i =>
    rw [step]
    split
    · exact extends_add rfl
    · exact .rfl
  | func is i =>
    rw [step]
    split
    · exact extends_add rfl
    · exact .rfl
  | _ => exact extends_add rfl

theorem HasForm.of_extends (h : r.HasForm c t) (he : r.Extends r') : r'.HasForm c t where
  mem := he.types_subset h.mem
  finite := he.resolutions_eq ▸ h.finite
  expand_eq := by rw [Store.expand, he.resolutions_eq, ← Store.expand, h.expand_eq]

namespace Makes

theorem rfl : r.Makes r := ⟨[], nofun, Eq.refl _⟩

theorem trans (h : r.Makes r') (h' : r'.Makes r'') : r.Makes r'' := by
  obtain ⟨qs, hqs, rfl⟩ := h
  obtain ⟨ms, hms, rfl⟩ := h'
  exact ⟨qs ++ ms, List.forall_mem_append.2 ⟨hqs, hms⟩, List.foldl_append⟩

theorem step {q : Request} (hq : q.makes = true) : r.Makes (r.step q) :=
  ⟨[q], List.forall_mem_singleton.2 hq, Eq.refl _⟩

theorem extends_to (h : r.Makes r') : r.Extends r' := by
  obtain ⟨qs, hqs, rfl⟩ := h
  induction qs generalizing r with
  | nil => exact .rfl
  | cons q qs ih =>
    obtain ⟨hq, hqs⟩ := List.forall_mem_cons.1 hqs
    exact (extends_step hq).trans (ih hqs)

end Makes

/-! ### Types of parts -/

theorem exists_places (h : ∀ t ∈ ts, ∃ c, r.HasForm c t) :
    ∃ places, (∀ c ∈ r.typesAt places, r.store.resolutions.Finite c) ∧
      (r.typesAt places).map r.store.expand = ts := by
  induction ts with
  | nil => exact ⟨[], nofun, rfl⟩
  | cons t ts ih =>
    obtain ⟨⟨c, hc⟩, hts⟩ := List.forall_mem_cons.1 h
    obtain ⟨i, hi⟩ := List.mem_iff_getElem?.1 hc.mem
    obtain ⟨places, hfin, rfl⟩ := ih hts
    have hcons : r.typesAt (i :: places) = c :: r.typesAt places := by simp [typesAt, hi]
    refine ⟨i :: places, ?_, ?_⟩
    · rw [hcons]
      exact List.forall_mem_cons.2 ⟨hc.finite, hfin⟩
    · rw [hcons, List.map_cons, hc.expand_eq]

/-- A type that is not a variable and has finite parts is finite when it has been added. -/
theorem hasForm_add {s : Store} (hs : s.resolutions = r.store.resolutions)
    (hv : ∀ v, c ≠ .var v) (hp : ∀ d ∈ c.parts, r.store.resolutions.Finite d)
    (he : r.store.expand c = t) :
    (r.add (c, s)).HasForm c t := by
  refine HasForm.mk (List.mem_append_right _ (List.mem_singleton_self c)) ?_ ?_
  · change Resolutions.Finite s.resolutions c
    rw [hs]
    refine Resolutions.finite_of_holds fun d hd => hp d (hd.resolve_right ?_)
    rintro ⟨v, rfl, -⟩
    exact hv v rfl
  · rw [← he]
    exact congrArg (Resolutions.expand · c) hs

theorem exists_basic (r : Registry) (b : Basic) : ∃ r' c, r.Makes r' ∧ r'.HasForm c (.basic b) :=
  ⟨_, _, .step (q := .basic b) rfl,
    hasForm_add rfl (by simp) nofun (Resolutions.expand_basic _ _)⟩

theorem exists_array (h : r.HasForm c t) : ∃ r' d, r.Makes r' ∧ r'.HasForm d (.array t) := by
  obtain ⟨i, hi⟩ := List.mem_iff_getElem?.1 h.mem
  have hstep : r.step (.array i) = r.add (r.store.newArray c) := by simp [step, hi]
  refine ⟨_, .array r.store.made c, .step (q := .array i) rfl, ?_⟩
  rw [hstep]
  refine hasForm_add rfl (by simp) ?_ ?_
  · exact List.forall_mem_singleton.2 h.finite
  · rw [← h.expand_eq]
    exact Resolutions.expand_array _ _ _

theorem exists_tuple (h : ∀ t ∈ ts, ∃ c, r.HasForm c t) :
    ∃ r' d, r.Makes r' ∧ r'.HasForm d (.tuple ts) := by
  obtain ⟨places, hfin, rfl⟩ := exists_places h
  exact ⟨_, _, .step (q := .tuple places) rfl,
    hasForm_add rfl (by simp) hfin (Resolutions.expand_tuple _ _ _)⟩

theorem exists_func (h : ∀ t ∈ ts, ∃ c, r.HasForm c t) (hr : r.HasForm c t) :
    ∃ r' d, r.Makes r' ∧ r'.HasForm d (.func ts t) := by
  obtain ⟨places, hfin, rfl⟩ := exists_places h
  obtain ⟨i, hi⟩ := List.mem_iff_getElem?.1 hr.mem
  have hstep : r.step (.func places i) = r.add (r.store.newFunc (r.typesAt places) c) := by
    simp [step, hi]
  refine ⟨_, .func r.store.made (r.typesAt places) c, .step (q := .func places i) rfl, ?_⟩
  rw [hstep]
  refine hasForm_add rfl (by simp) ?_ ?_
  · exact List.forall_mem_append.2 ⟨hfin, List.forall_mem_singleton.2 hr.finite⟩
  · rw [← hr.expand_eq]
    exact Resolutions.expand_func _ _ _ _

/-! ### Types without variables -/

/-- Types that can be made one by one can be made one after the other. -/
theorem exists_forall (h : ∀ t ∈ ts, ∀ r : Registry, ∃ r' c, r.Makes r' ∧ r'.HasForm c t)
    (r : Registry) : ∃ r', r.Makes r' ∧ ∀ t ∈ ts, ∃ c, r'.HasForm c t := by
  induction ts generalizing r with
  | nil => exact ⟨r, .rfl, nofun⟩
  | cons t ts ih =>
    obtain ⟨ht, hts⟩ := List.forall_mem_cons.1 h
    obtain ⟨r₁, c, h₁, hc⟩ := ht r
    obtain ⟨r₂, h₂, hall⟩ := ih hts r₁
    exact ⟨r₂, h₁.trans h₂, List.forall_mem_cons.2 ⟨⟨c, hc.of_extends h₂.extends_to⟩, hall⟩⟩

/-- **Every type without variables can be made**, whatever the registry. -/
theorem exists_made {t : Ty} (ht : t.isResolved = true) (r : Registry) :
    ∃ r' c, r.Makes r' ∧ r'.HasForm c t := by
  induction t generalizing r with
  | basic b => exact exists_basic r b
  | var v => cases ht
  | array t ih =>
    obtain ⟨r₁, c, h₁, hc⟩ := ih ht r
    obtain ⟨r₂, d, h₂, hd⟩ := exists_array hc
    exact ⟨r₂, d, h₁.trans h₂, hd⟩
  | tuple ts ih =>
    rw [Ty.isResolved, Ty.allResolved_eq, List.all_eq_true] at ht
    obtain ⟨r₁, h₁, hts⟩ := exists_forall (fun t htm => ih t htm (ht t htm)) r
    obtain ⟨r₂, d, h₂, hd⟩ := exists_tuple hts
    exact ⟨r₂, d, h₁.trans h₂, hd⟩
  | func ps t ihp iht =>
    rw [Ty.isResolved, Ty.allResolved_eq, Bool.and_eq_true, List.all_eq_true] at ht
    obtain ⟨r₁, h₁, hps⟩ := exists_forall (fun p hp => ihp p hp (ht.1 p hp)) r
    obtain ⟨r₂, c, h₂, hc⟩ := iht ht.2 r₁
    have hps' : ∀ p ∈ ps, ∃ d, r₂.HasForm d p := fun p hp =>
      (hps p hp).imp fun _ h => h.of_extends h₂.extends_to
    obtain ⟨r₃, d, h₃, hd⟩ := exists_func hps' hc
    exact ⟨r₃, d, h₁.trans (h₂.trans h₃), hd⟩

end Registry

end SmallMl
