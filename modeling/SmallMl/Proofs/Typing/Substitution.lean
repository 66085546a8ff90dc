import SmallMl.Typing.Ty

/-!
# Types in the place of variables

What is put in the place of a variable is all that changes: a type in which the variable does not
occur stays as it is (`Ty.subst_of_not_occurs`), and a variable that occurs afterwards occurred
before or came with what was put in (`Ty.occurs_of_occurs_subst`).
-/

namespace SmallMl

namespace Ty

/-- **Induction over types**, with a hypothesis for each part. -/
@[elab_as_elim, induction_eliminator]
theorem induct {motive : Ty → Prop} (basic : ∀ b, motive (basic b)) (var : ∀ v, motive (var v))
    (array : ∀ t, motive t → motive (array t))
    (tuple : ∀ ts, (∀ t ∈ ts, motive t) → motive (tuple ts))
    (func : ∀ ps r, (∀ p ∈ ps, motive p) → motive r → motive (func ps r)) (t : Ty) : motive t := by
  refine @Ty.rec motive (fun ts => ∀ t ∈ ts, motive t) basic var array tuple func nofun ?_ t
  exact fun _ _ ht hts => List.forall_mem_cons.2 ⟨ht, hts⟩

variable {s t u : Ty} {ts : List Ty} {v w : Nat}

@[simp] theorem substAll_eq (v : Nat) (s : Ty) (ts : List Ty) :
    substAll v s ts = ts.map (subst v s) := by
  induction ts with
  | nil => rfl
  | cons t ts ih => rw [substAll, ih, List.map_cons]

@[simp] theorem occursIn_eq (v : Nat) (ts : List Ty) : occursIn v ts = ts.any (occurs v) := by
  induction ts with
  | nil => rfl
  | cons t ts ih => rw [occursIn, ih, List.any_cons]

@[simp] theorem allResolved_eq (ts : List Ty) : allResolved ts = ts.all isResolved := by
  induction ts with
  | nil => rfl
  | cons t ts ih => rw [allResolved, ih, List.all_cons]

theorem size_le_sizes (h : t ∈ ts) : t.size ≤ sizes ts := by
  induction ts with
  | nil => cases h
  | cons u us ih =>
    rw [sizes]
    rcases List.mem_cons.1 h with rfl | h
    · exact Nat.le_add_right _ _
    · exact Nat.le_trans (ih h) (Nat.le_add_left _ _)

theorem size_ne_zero (t : Ty) : t.size ≠ 0 := by
  cases t <;> simp [size]

theorem subst_of_not_occurs (h : t.occurs v = false) : subst v s t = t := by
  have hmap : ∀ ts : List Ty, (∀ t ∈ ts, t.occurs v = false → subst v s t = t) →
      (∀ t ∈ ts, t.occurs v = false) → ts.map (subst v s) = ts := fun ts ih h =>
    (List.map_congr_left fun t ht => ih t ht (h t ht)).trans (List.map_id' ts)
  induction t with
  | basic b => rfl
  | var w =>
    rw [occurs, decide_eq_false_iff_not] at h
    rw [subst, if_neg h]
  | array t ih => rw [subst, ih h]
  | tuple ts ih =>
    rw [subst, substAll_eq, hmap ts ih (by simpa [occurs] using h)]
  | func ps r ihp ihr =>
    rw [occurs, Bool.or_eq_false_iff] at h
    rw [subst, substAll_eq, hmap ps ihp (by simpa using h.1), ihr h.2]

theorem not_occurs_of_isResolved (h : t.isResolved = true) : t.occurs v = false := by
  induction t with
  | basic b => rfl
  | var w => cases h
  | array t ih => exact ih h
  | tuple ts ih =>
    simp only [isResolved, allResolved_eq, List.all_eq_true] at h
    simpa [occurs] using fun t ht => ih t ht (h t ht)
  | func ps r ihp ihr =>
    simp only [isResolved, allResolved_eq, Bool.and_eq_true, List.all_eq_true] at h
    simpa [occurs] using ⟨fun p hp => ihp p hp (h.1 p hp), ihr h.2⟩

/-- **A variable that occurs after a substitution** occurred before or came with it. -/
theorem occurs_of_occurs_subst (h : (subst v s t).occurs w = true) :
    t.occurs w = true ∨ t.occurs v = true ∧ s.occurs w = true := by
  induction t with
  | basic b => cases h
  | var u =>
    by_cases hu : u = v
    · rw [subst, if_pos hu] at h
      exact .inr ⟨by simpa [occurs] using hu, h⟩
    · rw [subst, if_neg hu] at h
      exact .inl h
  | array t ih => exact ih h
  | tuple ts ih =>
    simp only [subst, occurs, substAll_eq, occursIn_eq, List.any_map, List.any_eq_true,
      Function.comp_apply] at h ⊢
    obtain ⟨t, ht, h⟩ := h
    exact (ih t ht h).imp (fun h => ⟨t, ht, h⟩) fun h => ⟨⟨t, ht, h.1⟩, h.2⟩
  | func ps r ihp ihr =>
    simp only [subst, occurs, substAll_eq, occursIn_eq, List.any_map, Bool.or_eq_true,
      List.any_eq_true, Function.comp_apply] at h ⊢
    rcases h with ⟨p, hp, h⟩ | h
    · exact (ihp p hp h).imp (fun h => .inl ⟨p, hp, h⟩) fun h => ⟨.inl ⟨p, hp, h.1⟩, h.2⟩
    · exact (ihr h).imp .inr fun h => ⟨.inr h.1, h.2⟩

end Ty

end SmallMl
