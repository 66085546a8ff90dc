import SmallMl.Proofs.Typing.Expansion

/-!
# When two types are the same

`Store.identical` compares two types level by level, with a shortcut where they are one and the same
cell.  In a registry a cell is known by its number, so the shortcut is sound, and each level of the
comparison is one level of the expansions (`Resolutions.agreeAt_iff`).  Types of the registry in
which nothing holds itself are therefore the same exactly if their expansions are equal
(`Registry.Sound.identical_some_iff`).
-/

namespace SmallMl

open Relation (ReflTransGen TransGen)

namespace Resolutions

variable {σ : Resolutions} {f : Cell → Cell → Bool} {a b : Cell}

theorem agreeAll_iff {g : Cell → Ty} : ∀ {xs ys : List Cell},
    (∀ x ∈ xs, ∀ y ∈ ys, f x y = true ↔ g x = g y) →
      (agreeAll f xs ys = true ↔ xs.map g = ys.map g)
  | [], [], _ => by simp [agreeAll]
  | [], y :: ys, _ => by simp [agreeAll]
  | x :: xs, [], _ => by simp [agreeAll]
  | x :: xs, y :: ys, h => by
    have ih : agreeAll f xs ys = true ↔ xs.map g = ys.map g :=
      agreeAll_iff fun a ha b hb => h a (by simp [ha]) b (by simp [hb])
    rw [agreeAll, Bool.and_eq_true, h x (by simp) y (by simp), ih, List.map_cons, List.map_cons,
      List.cons.injEq]

/-- **One level of the comparison is one level of the expansions**, for cells that are no resolved
variables. -/
theorem agreeAt_iff (hs : a.same b = true → a = b) (ha : ∀ d, ¬ σ.Refers a d)
    (hb : ∀ d, ¬ σ.Refers b d)
    (hf : ∀ p ∈ a.parts, ∀ q ∈ b.parts, f p q = true ↔ expand σ p = expand σ q) :
    agreeAt f a b = true ↔ expand σ a = expand σ b := by
  -- one and the same cell has one expansion, so the comparison of the parts decides
  have hor : ∀ x : Bool, (x = true ↔ expand σ a = expand σ b) →
      ((a.same b || x) = true ↔ expand σ a = expand σ b) := by
    intro x hx
    rw [Bool.or_eq_true]
    exact ⟨fun h => h.elim (fun h => congrArg _ (hs h)) hx.1, fun h => .inr (hx.2 h)⟩
  cases a with
  | basic x =>
    cases b with
    | var w => simp [agreeAt, Cell.same, expand_var_of_not_refers hb]
    | _ => simp [agreeAt, Cell.same]
  | var v =>
    rw [expand_var_of_not_refers ha]
    cases b with
    | var w => simp [agreeAt, Cell.same, expand_var_of_not_refers hb]
    | _ => simp [agreeAt, Cell.same]
  | array i e =>
    cases b with
    | array j e' =>
      have he := hf e (List.mem_singleton_self e) e' (List.mem_singleton_self e')
      exact hor _ (by simpa using he)
    | var w => simp [agreeAt, Cell.same, expand_var_of_not_refers hb]
    | _ => simp [agreeAt, Cell.same]
  | tuple i es =>
    cases b with
    | tuple j es' =>
      have hes : agreeAll f es es' = true ↔ es.map (expand σ) = es'.map (expand σ) :=
        agreeAll_iff hf
      exact hor _ (by simpa using hes)
    | var w => simp [agreeAt, Cell.same, expand_var_of_not_refers hb]
    | _ => simp [agreeAt, Cell.same]
  | func i ps r =>
    cases b with
    | func j ps' r' =>
      have hps := agreeAll_iff fun p hp q hq =>
        hf p (List.mem_append_left _ hp) q (List.mem_append_left _ hq)
      have hr := hf r (by simp [Cell.parts]) r' (by simp [Cell.parts])
      exact hor _ (by simp [hps, hr])
    | var w => simp [agreeAt, Cell.same, expand_var_of_not_refers hb]
    | _ => simp [agreeAt, Cell.same]

/-- Finite cells, with all that they hold, none of which has the number of another. -/
structure Closed (σ : Resolutions) (p : Cell → Prop) : Prop where
  finite : ∀ c, p c → σ.Finite c
  of_holds : ∀ c d, p c → σ.Holds c d → p d
  eq_of_same : ∀ c d, p c → p d → c.same d = true → c = d

namespace Closed

variable {p : Cell → Prop} {c d : Cell}

theorem of_chain (h : σ.Closed p) (hc : p c) (hd : ReflTransGen σ.Refers c d) : p d := by
  induction hd with
  | refl => exact hc
  | tail _ hd ih => exact h.of_holds _ _ ih (.inr hd)

/-- **The comparison looks as deep as it has to**: down to the size of an expansion it finds out
whether the expansions are equal. -/
theorem agree_iff (h : σ.Closed p) (hσ : Lawful σ) {depth : Nat} {x y : Cell} (hx : p x) (hy : p y)
    (hn : (expand σ x).size ≤ depth) : agree σ depth x y = true ↔ expand σ x = expand σ y := by
  induction depth generalizing x y with
  | zero => exact absurd (Nat.le_zero.1 hn) (Ty.size_ne_zero _)
  | succ depth ih =>
    have hux : p (underlying σ x) := h.of_chain hx (hσ.reaches_underlying x)
    have huy : p (underlying σ y) := h.of_chain hy (hσ.reaches_underlying y)
    have hex := hσ.expand_underlying (h.finite x hx)
    have hey := hσ.expand_underlying (h.finite y hy)
    have hparts : ∀ a ∈ (underlying σ x).parts, ∀ b ∈ (underlying σ y).parts,
        agree σ depth a b = true ↔ expand σ a = expand σ b := by
      intro a ha b hb
      have hlt := size_expand_lt (σ := σ) ha
      rw [hex] at hlt
      exact ih (h.of_holds _ _ hux (.inl ha)) (h.of_holds _ _ huy (.inl hb)) (by omega)
    have hlevel := agreeAt_iff (h.eq_of_same _ _ hux huy) (hσ.not_refers_underlying x)
      (hσ.not_refers_underlying y) hparts
    rw [hex, hey] at hlevel
    rw [agree, Bool.or_eq_true, hlevel]
    exact or_iff_right_of_imp fun hs => congrArg _ (h.eq_of_same x y hx hy hs)

end Closed

end Resolutions

/-! ### Types of a registry -/

namespace Registry

variable {r : Registry} {c d : Cell}

/-- No type of the registry contains itself. -/
def IsFinite (r : Registry) : Prop := ∀ c ∈ r.types, ¬ r.store.Contains c c

/-- The type is one of the registry, or there is none. -/
def Knows (r : Registry) (x : Option Cell) : Prop := ∀ c ∈ x, c ∈ r.types

theorem knows_of_getElem? {i : Nat} (h : r.types[i]? = some c) : r.Knows (some c) := by
  intro d hd
  obtain rfl := Option.some.inj hd
  exact List.mem_of_getElem? h

namespace Sound

theorem mem_of_holds (h : r.Sound) (hc : c ∈ r.types) (hd : r.store.resolutions.Holds c d) :
    d ∈ r.types := by
  rcases hd with hd | ⟨v, -, hv⟩
  · exact h.parts_mem c hc d hd
  · exact h.target_mem v d hv

theorem mem_of_reaches (h : r.Sound) (hc : c ∈ r.types)
    (hd : ReflTransGen r.store.resolutions.Holds c d) : d ∈ r.types := by
  induction hd with
  | refl => exact hc
  | tail _ hd ih => exact h.mem_of_holds ih hd

/-- If no type of the registry contains itself, no cell at all does. -/
theorem finite (h : r.Sound) (hf : r.IsFinite) (c : Cell) : r.store.resolutions.Finite c := by
  have htypes : ∀ c ∈ r.types, r.store.resolutions.Finite c := fun c hc d hd =>
    hf d (h.mem_of_reaches hc hd)
  induction c using Cell.induct_parts with
  | h c ih =>
    refine Resolutions.finite_of_holds fun d hd => ?_
    rcases hd with hd | ⟨v, -, hv⟩
    · exact ih d hd
    · exact htypes d (h.target_mem v d hv)

/-- Whether no type contains itself can be seen from the resolutions, one by one. -/
theorem isFinite_of_forall_mem (h : r.Sound)
    (he : ∀ p ∈ r.store.resolutions, r.store.expand (.var p.1) = r.store.expand p.2) :
    r.IsFinite :=
  fun c _ => h.lawful.finite_of_forall_mem he c c .refl

theorem closed (h : r.Sound) :
    r.store.resolutions.Closed fun c => c ∈ r.types ∧ r.store.resolutions.Finite c where
  finite _ hc := hc.2
  of_holds _ _ hc hd := ⟨h.mem_of_holds hc.1 hd, hc.2.of_holds hd⟩
  eq_of_same c d hc hd := h.eq_of_same c hc.1 d hd.1

/-- **Finite types of a registry are the same exactly if their expansions are equal.** -/
theorem identical_some_iff (h : r.Sound) (hc : c ∈ r.types) (hd : d ∈ r.types)
    (hfc : r.store.resolutions.Finite c) (hfd : r.store.resolutions.Finite d) :
    r.store.identical (some c) (some d) = true ↔ r.store.expand c = r.store.expand d :=
  h.closed.agree_iff h.lawful ⟨hc, hfc⟩ ⟨hd, hfd⟩ (Nat.le_refl _)

theorem identical_eq_true_iff (h : r.Sound) (hf : r.IsFinite) {x y : Option Cell} (hx : r.Knows x)
    (hy : r.Knows y) :
    r.store.identical x y = true ↔ x.map r.store.expand = y.map r.store.expand := by
  cases x with
  | none => cases y <;> simp [Store.identical]
  | some c =>
    cases y with
    | none => simp [Store.identical]
    | some d =>
      rw [h.identical_some_iff (hx c rfl) (hy d rfl) (h.finite hf c) (h.finite hf d),
        Option.map_some, Option.map_some, Option.some.injEq]

end Sound

/-- **Two types are the same exactly if replacing their resolved variables makes them equal.**  Let
no type of the registry contain itself.  Then resolved variables can be replaced by their targets,
all the way down, in one way.  Two types of the registry, or none, are the same exactly if they are
replaced by the same; so to be the same is an equivalence. -/
theorem identical_iff_unfolded (qs : List Request) (hf : (run qs).IsFinite) :
    (∀ f, (run qs).store.Unfolds f ↔ f = (run qs).store.expand) ∧
      (∀ x y, (run qs).Knows x → (run qs).Knows y → ((run qs).store.identical x y = true ↔
        x.map (run qs).store.expand = y.map (run qs).store.expand)) ∧
      (∀ x, (run qs).Knows x → (run qs).store.identical x x = true) ∧
      (∀ x y, (run qs).Knows x → (run qs).Knows y → (run qs).store.identical x y = true →
        (run qs).store.identical y x = true) ∧
      ∀ x y z, (run qs).Knows x → (run qs).Knows y → (run qs).Knows z →
        (run qs).store.identical x y = true → (run qs).store.identical y z = true →
          (run qs).store.identical x z = true := by
  have h := sound_run qs
  have hiff : ∀ x y, (run qs).Knows x → (run qs).Knows y →
      ((run qs).store.identical x y = true ↔
        x.map (run qs).store.expand = y.map (run qs).store.expand) :=
    fun _ _ => h.identical_eq_true_iff hf
  refine ⟨fun f => Store.unfolds_iff h.lawful (h.finite hf), hiff, ?refl, ?symm, ?trans⟩
  case refl =>
    intro x hx
    exact (hiff x x hx hx).2 rfl
  case symm =>
    intro x y hx hy hxy
    exact (hiff y x hy hx).2 ((hiff x y hx hy).1 hxy).symm
  case trans =>
    intro x y z hx hy hz hxy hyz
    exact (hiff x z hx hz).2 (((hiff x y hx hy).1 hxy).trans ((hiff y z hy hz).1 hyz))

/-- Two arrays, one of a chain of variables that ends at `int` and one of `int`. -/
def arrays : List Request :=
  [.basic .int, .var, .var, .array 1, .resolve 1 2, .resolve 2 0, .array 0]

theorem identical_iff_unfolded_of_arrays :
    (run arrays).IsFinite ∧
      (run arrays).types[3]? = some (.array 2 (.var 0)) ∧
      (run arrays).types[4]? = some (.array 3 (.basic .int)) ∧
      (run arrays).store.expand (.array 2 (.var 0)) = .array (.basic .int) ∧
      (run arrays).store.identical (some (.array 2 (.var 0))) (some (.array 3 (.basic .int))) =
        true := by
  have hfin : (run arrays).IsFinite := (sound_run arrays).isFinite_of_forall_mem
    (List.forall_mem_cons.2 ⟨rfl, List.forall_mem_cons.2 ⟨rfl, nofun⟩⟩)
  have h := (identical_iff_unfolded arrays hfin).2.1
  exact ⟨hfin, rfl, rfl, rfl,
    (h _ _ (knows_of_getElem? (i := 3) rfl) (knows_of_getElem? (i := 4) rfl)).2 rfl⟩

end Registry

end SmallMl
