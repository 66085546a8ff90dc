import SmallMl.Proofs.Typing.Registry
import SmallMl.Proofs.Typing.Substitution

/-!
# Types with their variables replaced

A cell holds its parts, and a resolved variable holds what it was resolved to.  A variable may be
resolved to a type that it is a part of, and then both hold themselves; a cell is finite if nothing
in it does.  Finite cells are well founded (`Resolutions.Lawful.induct_finite`).

`Resolutions.expand` goes through the resolutions one by one.  On finite cells it is what replacing
resolved variables all the way down comes to: it goes through every form of type, keeps free
variables, and takes a resolved variable to what its target is taken to
(`Resolutions.Lawful.expand_of_refers`).  If all cells are finite no other function does that
(`Store.unfolds_iff`).
-/

namespace SmallMl

open Relation (ReflTransGen TransGen)

namespace Cell

/-- **Induction over cells**, with a hypothesis for each part. -/
@[elab_as_elim]
theorem induct_parts {motive : Cell → Prop} (h : ∀ c, (∀ d ∈ c.parts, motive d) → motive c)
    (c : Cell) : motive c := by
  refine @Cell.rec motive (fun cs => ∀ c ∈ cs, motive c) (fun b => h _ nofun)
    (fun i => h _ nofun) (fun i e he => h _ ?_) (fun i es hes => h _ hes)
    (fun i ps r hps hr => h _ ?_) nofun (fun _ _ hc hcs => List.forall_mem_cons.2 ⟨hc, hcs⟩) c
  · simpa [parts] using he
  · intro d hd
    rcases List.mem_append.1 hd with hd | hd
    · exact hps d hd
    · rwa [List.mem_singleton.1 hd]

@[simp] theorem trees_eq (cs : List Cell) : trees cs = cs.map tree := by
  induction cs with
  | nil => rfl
  | cons c cs ih => rw [trees, ih, List.map_cons]

theorem eq_or_occurs_of_occurs_tree {c : Cell} {v : Nat} (h : c.tree.occurs v = true) :
    c = var v ∨ ∃ d ∈ c.parts, d.tree.occurs v = true := by
  cases c with
  | basic b => cases h
  | var w => exact .inl (by simpa [tree, Ty.occurs] using h)
  | array i e => exact .inr ⟨e, by simp [parts], h⟩
  | tuple i es => exact .inr (by simpa [tree, Ty.occurs, parts] using h)
  | func i ps r =>
    simp only [tree, Ty.occurs, trees_eq, Ty.occursIn_eq, List.any_map, Bool.or_eq_true,
      List.any_eq_true, Function.comp_apply] at h
    rcases h with ⟨p, hp, h⟩ | h
    · exact .inr ⟨p, by simp [parts, hp], h⟩
    · exact .inr ⟨r, by simp [parts], h⟩

end Cell

namespace Resolutions

/-- The cell `d` is a part of `c`, or what the variable `c` was resolved to. -/
def Holds (σ : Resolutions) (c d : Cell) : Prop := d ∈ c.parts ∨ σ.Refers c d

/-- Nothing in the cell holds itself, at whatever depth. -/
def Finite (σ : Resolutions) (c : Cell) : Prop :=
  ∀ d, ReflTransGen σ.Holds c d → ¬ TransGen σ.Holds d d

variable {σ : Resolutions} {c d s : Cell} {v w : Nat}

/-! ### What a cell holds -/

theorem Holds.cons (hv : σ.lookup v = none) (h : σ.Holds c d) : Holds ((v, s) :: σ) c d :=
  h.imp_right (.cons hv)

theorem Refers.eq_of_holds {e : Cell} (hd : σ.Refers c d) (he : σ.Holds c e) : e = d := by
  obtain ⟨v, rfl, -⟩ := id hd
  rcases he with he | he
  · cases he
  · exact he.unique hd

theorem reaches_cons (hv : σ.lookup v = none) (h : ReflTransGen σ.Holds c d) :
    ReflTransGen (Holds ((v, s) :: σ)) c d :=
  ReflTransGen.mono (fun _ _ => Holds.cons hv) _ _ h

namespace Finite

theorem of_holds (h : σ.Finite c) (hd : σ.Holds c d) : σ.Finite d :=
  fun e he => h e (.head hd he)

theorem of_cons (hv : σ.lookup v = none) (h : Finite ((v, s) :: σ) c) : σ.Finite c :=
  fun d hd hc => h d (reaches_cons hv hd) (TransGen.mono (fun _ _ => Holds.cons hv) _ _ hc)

end Finite

theorem finite_of_holds (h : ∀ d, σ.Holds c d → σ.Finite d) : σ.Finite c := by
  intro d hd hc
  rcases ReflTransGen.cases_head hd with rfl | ⟨e, he, hed⟩
  · obtain ⟨e, he, hec⟩ := TransGen.head'_iff.1 hc
    exact h e he e .refl (.tail' hec he)
  · exact h e he d hed hc

/-! ### The expansion, form by form -/

theorem expand_cons : expand ((v, s) :: σ) c = Ty.subst v (expand σ s) (expand σ c) := by
  rw [expand]
  cases hv : (expand σ c).occurs v with
  | true => rfl
  | false => exact (Ty.subst_of_not_occurs hv).symm

@[simp] theorem expand_basic (σ : Resolutions) (b : Basic) : expand σ (.basic b) = .basic b := by
  induction σ with
  | nil => rfl
  | cons p σ ih => rw [expand_cons, ih, Ty.subst]

@[simp] theorem expand_array (σ : Resolutions) (i : Nat) (e : Cell) :
    expand σ (.array i e) = .array (expand σ e) := by
  induction σ with
  | nil => rfl
  | cons p σ ih => rw [expand_cons, expand_cons, ih, Ty.subst]

@[simp] theorem expand_tuple (σ : Resolutions) (i : Nat) (es : List Cell) :
    expand σ (.tuple i es) = .tuple (es.map (expand σ)) := by
  induction σ with
  | nil => simp [expand, Cell.tree]
  | cons p σ ih =>
    obtain ⟨v, s⟩ := p
    simp [expand_cons, ih, Ty.subst]

@[simp] theorem expand_func (σ : Resolutions) (i : Nat) (ps : List Cell) (r : Cell) :
    expand σ (.func i ps r) = .func (ps.map (expand σ)) (expand σ r) := by
  induction σ with
  | nil => simp [expand, Cell.tree]
  | cons p σ ih =>
    obtain ⟨v, s⟩ := p
    simp [expand_cons, ih, Ty.subst]

/-- A variable that was not resolved stays. -/
theorem expand_var_of_none (h : σ.lookup v = none) : expand σ (.var v) = .var v := by
  induction σ with
  | nil => rfl
  | cons b σ ih =>
    obtain ⟨u, s⟩ := b
    have hv : v ≠ u := by
      rintro rfl
      simp at h
    rw [expand_cons, ih (by rwa [lookup_cons_of_ne hv] at h), Ty.subst, if_neg hv]

theorem expand_var_of_not_refers (h : ∀ d, ¬ σ.Refers (.var v) d) :
    expand σ (.var v) = .var v :=
  expand_var_of_none (Option.eq_none_iff_forall_ne_some.2 fun d hd => h d ⟨v, rfl, hd⟩)

theorem size_expand_lt (h : d ∈ c.parts) : (expand σ d).size < (expand σ c).size := by
  have hlist : ∀ es : List Cell, d ∈ es → (expand σ d).size ≤ Ty.sizes (es.map (expand σ)) :=
    fun es hd => Ty.size_le_sizes (List.mem_map_of_mem hd)
  cases c with
  | basic b => cases h
  | var v => cases h
  | array i e =>
    obtain rfl := List.mem_singleton.1 h
    simp [Ty.size]
  | tuple i es =>
    have := hlist es h
    simp only [expand_tuple, Ty.size]
    omega
  | func i ps r =>
    simp only [expand_func, Ty.size]
    rcases List.mem_append.1 h with hd | hd
    · have := hlist ps hd
      omega
    · rw [List.mem_singleton.1 hd]
      omega

namespace Lawful

/-- **A variable that is left in the expansion was held by the cell.** -/
theorem reaches_of_occurs (h : Lawful σ) (hv : (expand σ c).occurs v = true) :
    ReflTransGen σ.Holds c (.var v) := by
  induction h generalizing c v with
  | nil =>
    induction c using Cell.induct_parts with
    | h c ih =>
      rcases Cell.eq_or_occurs_of_occurs_tree hv with rfl | ⟨d, hd, hdv⟩
      · exact .refl
      · exact .head (.inl hd) (ih d hd hdv)
  | @cons σ u s hu hs _ ih =>
    rw [expand_cons] at hv
    rcases Ty.occurs_of_occurs_subst hv with hc | ⟨hcu, hsv⟩
    · exact reaches_cons hu (ih hc)
    · exact ((reaches_cons hu (ih hcu)).tail (.inr refers_cons_self)).trans
        (reaches_cons hu (ih hsv))

/-- **A finite variable is taken to what its target is taken to.** -/
theorem expand_of_refers (h : Lawful σ) (hf : σ.Finite c) (hr : σ.Refers c d) :
    expand σ c = expand σ d := by
  obtain ⟨w, rfl, hd⟩ := hr
  induction h generalizing d with
  | nil => cases hd
  | @cons σ v s hv hs hσ ih =>
    by_cases hw : w = v
    · subst hw
      obtain rfl : s = d := by simpa using hd
      -- otherwise the variable would hold itself through its target
      have hocc : (expand σ s).occurs w = false := by
        refine Bool.eq_false_iff.2 fun hocc => hf _ .refl ?_
        exact .head' (.inr refers_cons_self) (reaches_cons hv (hσ.reaches_of_occurs hocc))
      rw [expand_cons, expand_cons, expand_var_of_none hv, Ty.subst_of_not_occurs hocc, Ty.subst,
        if_pos rfl]
    · rw [lookup_cons_of_ne hw] at hd
      rw [expand_cons, expand_cons, ih hd (hf.of_cons hv)]

theorem expand_of_chain (h : Lawful σ) (hf : σ.Finite c) (hr : ReflTransGen σ.Refers c d) :
    expand σ c = expand σ d := by
  induction hr using ReflTransGen.head_induction_on with
  | refl => rfl
  | head hab _ ih => rw [h.expand_of_refers hf hab, ih (hf.of_holds (.inr hab))]

theorem expand_underlying (h : Lawful σ) (hf : σ.Finite c) :
    expand σ (underlying σ c) = expand σ c :=
  (h.expand_of_chain hf (h.reaches_underlying c)).symm

/-- **Finite cells are well founded**: what holds of a cell if it holds of all that the cell holds,
holds of every finite cell. -/
theorem induct_finite {motive : Cell → Prop} (h : Lawful σ)
    (step : ∀ c, σ.Finite c → (∀ d, σ.Holds c d → motive d) → motive c) (hf : σ.Finite c) :
    motive c := by
  -- parts have a smaller expansion; a chain of variables has one expansion, and ends
  induction hn : (expand σ c).size using Nat.strongRecOn generalizing c with
  | _ n ih =>
  have hchain := h.reaches_underlying c
  have hu := h.not_refers_underlying c
  generalize underlying σ c = u at hchain hu
  induction hchain using ReflTransGen.head_induction_on with
  | refl =>
    refine step u hf fun d hd => ?_
    have hpart : d ∈ u.parts := hd.resolve_right (hu d)
    exact ih _ (hn ▸ size_expand_lt hpart) (hf.of_holds hd) rfl
  | @head a b hab _ hb =>
    refine step a hf fun d hd => ?_
    rw [hab.eq_of_holds hd]
    exact hb (hf.of_holds (.inr hab)) (by rw [← h.expand_of_refers hf hab, hn])

/-- On the way down a cell the expansion gets smaller, except along a chain of variables. -/
theorem size_of_transGen (he : ∀ c d, σ.Refers c d → expand σ c = expand σ d)
    (hc : TransGen σ.Holds c d) :
    (expand σ d).size < (expand σ c).size ∨
      (expand σ d).size = (expand σ c).size ∧ TransGen σ.Refers c d := by
  induction hc with
  | single h =>
    rcases h with h | h
    · exact .inl (size_expand_lt h)
    · exact .inr ⟨by rw [he _ _ h], .single h⟩
  | tail _ h ih =>
    rcases h with h | h
    · have hlt := size_expand_lt (σ := σ) h
      exact .inl (by omega)
    · rw [← he _ _ h]
      exact ih.imp_right fun ⟨heq, hr⟩ => ⟨heq, .tail hr h⟩

/-- **Nothing holds itself exactly if the expansion goes along with every resolution.** -/
theorem finite_iff (h : Lawful σ) :
    (∀ c, σ.Finite c) ↔ ∀ c d, σ.Refers c d → expand σ c = expand σ d := by
  refine ⟨fun hf c d hr => h.expand_of_refers (hf c) hr, fun he c d _ hd => ?_⟩
  rcases size_of_transGen he hd with hlt | ⟨-, hr⟩
  · exact Nat.lt_irrefl _ hlt
  · exact h.not_transGen_refers d hr

/-- The resolutions can be checked one by one. -/
theorem finite_of_forall_mem (h : Lawful σ)
    (he : ∀ p ∈ σ, expand σ (.var p.1) = expand σ p.2) (c : Cell) : σ.Finite c := by
  refine h.finite_iff.2 (fun c d hr => ?_) c
  obtain ⟨v, rfl, hd⟩ := hr
  obtain ⟨l, m, hl, -⟩ := List.lookup_eq_some_iff.1 hd
  exact he (v, d) (by simp [hl])

end Lawful

end Resolutions

/-! ### Expansions of a store -/

namespace Store

/-- The cell `d` is in `c`, at some depth. -/
def Contains (s : Store) (c d : Cell) : Prop := TransGen s.resolutions.Holds c d

/-- The function replaces every resolved variable by its target, all the way down. -/
structure Unfolds (s : Store) (f : Cell → Ty) : Prop where
  basic : ∀ b, f (.basic b) = .basic b
  free : ∀ v, s.target? v = none → f (.var v) = .var v
  resolved : ∀ v c, s.target? v = some c → f (.var v) = f c
  array : ∀ i e, f (.array i e) = .array (f e)
  tuple : ∀ i es, f (.tuple i es) = .tuple (es.map f)
  func : ∀ i ps r, f (.func i ps r) = .func (ps.map f) (f r)

variable {s : Store} {f g : Cell → Ty}

theorem unfolds_expand (h : s.resolutions.Lawful) (hf : ∀ c, s.resolutions.Finite c) :
    s.Unfolds s.expand where
  basic := Resolutions.expand_basic _
  free _ := Resolutions.expand_var_of_none
  resolved v _ hc := h.expand_of_refers (hf _) ⟨v, rfl, hc⟩
  array := Resolutions.expand_array _
  tuple := Resolutions.expand_tuple _
  func := Resolutions.expand_func _

/-- Two functions that unfold a cell in the same way agree on it if they agree on what it holds. -/
theorem Unfolds.congr (hf : s.Unfolds f) (hg : s.Unfolds g) {c : Cell}
    (h : ∀ d, s.resolutions.Holds c d → f d = g d) : f c = g c := by
  have hparts : ∀ d ∈ c.parts, f d = g d := fun d hd => h d (.inl hd)
  cases c with
  | basic b => rw [hf.basic, hg.basic]
  | var v =>
    cases hv : s.target? v with
    | none => rw [hf.free v hv, hg.free v hv]
    | some d => rw [hf.resolved v d hv, hg.resolved v d hv, h d (.inr ⟨v, rfl, hv⟩)]
  | array i e => rw [hf.array, hg.array, hparts e (by simp [Cell.parts])]
  | tuple i es =>
    have hes : es.map f = es.map g := List.map_congr_left hparts
    rw [hf.tuple, hg.tuple, hes]
  | func i ps r =>
    have hps : ps.map f = ps.map g :=
      List.map_congr_left fun p hp => hparts p (List.mem_append_left _ hp)
    rw [hf.func, hg.func, hps, hparts r (by simp [Cell.parts])]

/-- **Replacing resolved variables all the way down can be done in one way.** -/
theorem unfolds_iff (h : s.resolutions.Lawful) (hfin : ∀ c, s.resolutions.Finite c) :
    s.Unfolds f ↔ f = s.expand := by
  have hexpand := unfolds_expand h hfin
  refine ⟨fun hf => funext fun c => ?_, fun hf => hf ▸ hexpand⟩
  exact h.induct_finite (fun c _ hc => hf.congr hexpand hc) (hfin c)

end Store

end SmallMl
