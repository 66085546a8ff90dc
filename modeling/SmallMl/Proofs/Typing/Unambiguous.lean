import SmallMl.Proofs.Typing.Currying

/-!
# What the written form of a type determines

A type is written as its steps with arrows between them, a step as its factors with stars between
them, and a factor as a name or a type in parentheses with a word behind it for every array.  Each
of the three can be told from what may stand behind it, so texts that are equal have equal parts,
one after the other (`Ty.intercalate_append_inj`), and by induction over the type, the text of a
type in normal form determines it (`Ty.Normal.told`).

Flattening changes the written form of no type, and brings a type without variables into normal
form if its tuples and functions have the parts they need.  Two such types are therefore written in
the same way exactly if they are equal after flattening (`Ty.chars_eq_iff`).
-/

namespace SmallMl

namespace Ty

/-! ### What stands behind a type -/

/-- The text is at its end or closes a parenthesis. -/
def Closes (k : List Char) : Prop := ∀ c ∈ k.head?, c = ')'

/-- The text can stand behind a step. -/
def EndsStep (k : List Char) : Prop := Closes k ∨ ∃ m, k = arrow ++ m

/-- The text can stand behind a factor. -/
def EndsFactor (k : List Char) : Prop := EndsStep k ∨ ∃ m, k = star ++ m

/-- In the form `f`, the text of `t` tells `t` from any type in normal form, and where it ends. -/
def Told (f : Ty → List Char) (ends : List Char → Prop) (t : Ty) : Prop :=
  ∀ ⦃u : Ty⦄ ⦃k l : List Char⦄, u.Normal → ends k → ends l → f t ++ k = f u ++ l → t = u ∧ k = l

/-- Parts that end with `ends` can be written with `sep` between them in front of `after`. -/
structure Separates (sep : List Char) (ends after : List Char → Prop) : Prop where
  ends_sep : ∀ m, ends (sep ++ m)
  ends_of_after : ∀ k, after k → ends k
  after_ne : ∀ k m, after k → k ≠ sep ++ m

variable {t u : Ty} {ts us : List Ty} {k l : List Char}

theorem closes_cons (k : List Char) : Closes (')' :: k) := by
  intro c hc
  exact (Option.some.inj hc).symm

theorem Closes.ne_cons {c : Char} (h : Closes k) (hc : c ≠ ')') (m : List Char) : k ≠ c :: m := by
  rintro rfl
  exact hc (h c rfl)

theorem separates_arrow : Separates arrow EndsStep Closes where
  ends_sep m := .inr ⟨m, rfl⟩
  ends_of_after _ := .inl
  after_ne _ _ h := h.ne_cons (by decide) _

theorem separates_star : Separates star EndsFactor EndsStep where
  ends_sep m := .inr ⟨m, rfl⟩
  ends_of_after _ := .inl
  after_ne := by
    rintro k m (h | ⟨n, rfl⟩)
    · exact h.ne_cons (by decide) _
    · simp [arrow, star]

theorem EndsFactor.ne_arraySuffix (h : EndsFactor k) (m : List Char) : k ≠ arraySuffix ++ m := by
  rcases h with (h | ⟨n, rfl⟩) | ⟨n, rfl⟩
  · exact h.ne_cons (by decide) _
  · simp [arrow, arraySuffix]
  · simp [star, arraySuffix]

/-! ### Rows of parts -/

section Rows

variable {f : Ty → List Char} {sep : List Char} {ends after : List Char → Prop}

theorem intercalate_map_cons (t : Ty) (ts : List Ty) :
    sep.intercalate ((t :: ts).map f) = f t ++ ts.flatMap fun u => sep ++ f u := by
  induction ts generalizing t with
  | nil => simp
  | cons u ts ih =>
    have h := ih u
    rw [List.map_cons] at h
    simp only [List.map_cons, List.intercalate_cons_cons, h, List.flatMap_cons, List.append_assoc]

theorem Separates.ends_rest (h : Separates sep ends after) (hk : after k) (ts : List Ty) :
    ends ((ts.flatMap fun u => sep ++ f u) ++ k) := by
  cases ts with
  | nil => exact h.ends_of_after k hk
  | cons t ts =>
    rw [List.flatMap_cons, List.append_assoc, List.append_assoc]
    exact h.ends_sep _

theorem rest_append_inj (hs : Separates sep ends after) (hk : after k) (hl : after l) :
    ∀ {ts us : List Ty}, (∀ t ∈ ts, Told f ends t) → (∀ u ∈ us, u.Normal) →
      (ts.flatMap fun u => sep ++ f u) ++ k = (us.flatMap fun u => sep ++ f u) ++ l →
        ts = us ∧ k = l
  | [], [], _, _, h => ⟨rfl, h⟩
  | [], u :: us, _, _, h => by
    rw [List.flatMap_cons, List.append_assoc, List.append_assoc] at h
    exact absurd h (hs.after_ne k _ hk)
  | t :: ts, [], _, _, h => by
    rw [List.flatMap_cons, List.append_assoc, List.append_assoc] at h
    exact absurd h.symm (hs.after_ne l _ hl)
  | t :: ts, u :: us, ht, hu, h => by
    obtain ⟨ht, hts⟩ := List.forall_mem_cons.1 ht
    obtain ⟨hu, hus⟩ := List.forall_mem_cons.1 hu
    simp only [List.flatMap_cons, List.append_assoc, List.append_cancel_left_eq] at h
    obtain ⟨rfl, hrest⟩ := ht hu (hs.ends_rest hk ts) (hs.ends_rest hl us) h
    obtain ⟨rfl, hkl⟩ := rest_append_inj hs hk hl hts hus hrest
    exact ⟨rfl, hkl⟩

/-- **Rows are told part by part**, if their parts are. -/
theorem intercalate_append_inj (hs : Separates sep ends after) (hk : after k) (hl : after l)
    (hts : ts ≠ []) (hus : us ≠ []) (ht : ∀ t ∈ ts, Told f ends t) (hu : ∀ u ∈ us, u.Normal)
    (h : sep.intercalate (ts.map f) ++ k = sep.intercalate (us.map f) ++ l) : ts = us ∧ k = l := by
  obtain ⟨t, ts, rfl⟩ := List.exists_cons_of_ne_nil hts
  obtain ⟨u, us, rfl⟩ := List.exists_cons_of_ne_nil hus
  -- behind a separator a row has the form that the recursion is about
  refine rest_append_inj hs hk hl ht hu ?_
  simp only [intercalate_map_cons, List.append_assoc] at h
  simp only [List.flatMap_cons, List.append_assoc, h]

end Rows

/-! ### Steps and factors -/

def steps : Ty → List Ty
  | func ps r => ps ++ [r]
  | t => [t]

def factors : Ty → List Ty
  | tuple ts => ts
  | t => [t]

theorem param_eq (t : Ty) : t.param = star.intercalate (t.factors.map operand) := by
  cases t with
  | tuple ts => exact chars_tuple ts
  | _ => simp [factors, param, operand, isFunc, isTuple]

theorem param_of_not_isFunc (h : t.isFunc = false) : t.param = t.chars := by
  rw [param, h]
  rfl

theorem params_append_param (ps : List Ty) (r : Ty) :
    (ps.flatMap fun p => p.param ++ arrow) ++ r.param =
      arrow.intercalate ((ps ++ [r]).map param) := by
  induction ps with
  | nil => simp
  | cons p ps ih =>
    rw [List.flatMap_cons, List.append_assoc, ih]
    cases ps with
    | nil => simp [List.intercalate_cons_cons]
    | cons q ps => simp [List.intercalate_cons_cons]

theorem steps_ne_nil (t : Ty) : t.steps ≠ [] := by
  cases t <;> simp [steps]

namespace Normal

theorem factors_ne_nil (h : t.Normal) : t.factors ≠ [] := by
  cases h with
  | tuple hn _ => exact List.ne_nil_of_length_pos (by simp only [factors]; omega)
  | _ => exact List.cons_ne_nil _ _

theorem of_mem_steps (h : t.Normal) (hu : u ∈ t.steps) : u.Normal := by
  cases h with
  | func _ hps hr _ => exact List.forall_mem_append.2 ⟨hps, List.forall_mem_singleton.2 hr⟩ u hu
  | basic b => exact List.forall_mem_singleton.2 (.basic b) u hu
  | array ht => exact List.forall_mem_singleton.2 (.array ht) u hu
  | tuple hn hts => exact List.forall_mem_singleton.2 (.tuple hn hts) u hu

theorem of_mem_factors (h : t.Normal) (hu : u ∈ t.factors) : u.Normal := by
  cases h with
  | tuple _ hts => exact hts u hu
  | basic b => exact List.forall_mem_singleton.2 (.basic b) u hu
  | array ht => exact List.forall_mem_singleton.2 (.array ht) u hu
  | func hn hps hr hf => exact List.forall_mem_singleton.2 (.func hn hps hr hf) u hu

theorem chars_eq (h : t.Normal) : t.chars = arrow.intercalate (t.steps.map param) := by
  cases h with
  | func _ _ _ hf => rw [chars_func, ← param_of_not_isFunc hf, params_append_param, steps]
  | _ => simp [steps, param, isFunc]

/-- The steps of a function are more than one; any other type is its only step. -/
theorem eq_of_steps_eq (ht : t.Normal) (hu : u.Normal) (h : t.steps = u.steps) : t = u := by
  cases ht with
  | func hn _ _ _ =>
    cases hu with
    | func _ _ _ _ =>
      obtain ⟨rfl, hr⟩ := List.append_inj' h rfl
      rw [List.singleton_inj.1 hr]
    | _ => simp [steps, hn, List.append_eq_singleton_iff] at h
  | _ =>
    cases hu with
    | func hn _ _ _ => simp [steps, hn, List.singleton_eq_append_iff] at h
    | _ => exact List.singleton_inj.1 h

/-- The factors of a tuple are more than one; any other type is its only factor. -/
theorem eq_of_factors_eq (ht : t.Normal) (hu : u.Normal) (h : t.factors = u.factors) : t = u := by
  cases ht with
  | tuple hn _ =>
    cases hu with
    | tuple _ _ => exact congrArg Ty.tuple h
    | _ =>
      have hlen := congrArg List.length h
      simp only [factors, List.length_singleton] at hlen
      omega
  | _ =>
    cases hu with
    | tuple hn _ =>
      have hlen := congrArg List.length h
      simp only [factors, List.length_singleton] at hlen
      omega
    | _ => exact List.singleton_inj.1 h

theorem told_chars (ht : t.Normal) (h : ∀ s ∈ t.steps, Told param EndsStep s) :
    Told chars Closes t := by
  intro u k l hu hk hl he
  rw [ht.chars_eq, hu.chars_eq] at he
  obtain ⟨hs, hkl⟩ := intercalate_append_inj separates_arrow hk hl (steps_ne_nil t)
    (steps_ne_nil u) h (fun _ => hu.of_mem_steps) he
  exact ⟨ht.eq_of_steps_eq hu hs, hkl⟩

theorem told_param (ht : t.Normal) (h : ∀ s ∈ t.factors, Told operand EndsFactor s) :
    Told param EndsStep t := by
  intro u k l hu hk hl he
  rw [param_eq, param_eq] at he
  obtain ⟨hs, hkl⟩ := intercalate_append_inj separates_star hk hl ht.factors_ne_nil
    hu.factors_ne_nil h (fun _ => hu.of_mem_factors) he
  exact ⟨ht.eq_of_factors_eq hu hs, hkl⟩

end Normal

/-! ### Factors -/

/-- Arrays of arrays of … of the type. -/
def arrays : Nat → Ty → Ty
  | 0, t => t
  | n + 1, t => arrays n (array t)

/-- The words for so many arrays. -/
def arrayWords (n : Nat) : List Char := (List.replicate n arraySuffix).flatten

theorem array_arrays (n : Nat) (t : Ty) : array (arrays n t) = arrays (n + 1) t := by
  induction n generalizing t with
  | zero => rfl
  | succ n ih => exact ih (array t)

theorem exists_arrays (t : Ty) : ∃ n u, t = arrays n u ∧ ∀ e, u ≠ array e := by
  induction t with
  | array t ih =>
    obtain ⟨n, u, rfl, hu⟩ := ih
    exact ⟨n + 1, u, array_arrays n u, hu⟩
  | basic b => exact ⟨0, _, rfl, nofun⟩
  | var v => exact ⟨0, _, rfl, nofun⟩
  | tuple ts => exact ⟨0, _, rfl, nofun⟩
  | func ps r => exact ⟨0, _, rfl, nofun⟩

theorem arrayWords_succ (n : Nat) : arrayWords (n + 1) = arraySuffix ++ arrayWords n := by
  rw [arrayWords, List.replicate_succ, List.flatten_cons, arrayWords]

theorem operand_array (t : Ty) : (array t).operand = t.operand ++ arraySuffix := rfl

theorem operand_arrays (n : Nat) (t : Ty) : (arrays n t).operand = t.operand ++ arrayWords n := by
  induction n generalizing t with
  | zero => simp [arrays, arrayWords]
  | succ n ih => rw [arrays, ih, operand_array, arrayWords_succ, List.append_assoc]

theorem normal_of_arrays {n : Nat} (h : (arrays n t).Normal) : t.Normal := by
  induction n generalizing t with
  | zero => exact h
  | succ n ih =>
    cases ih h with
    | array ht => exact ht

theorem arrayWords_append_inj (hk : EndsFactor k) (hl : EndsFactor l) : ∀ {m n : Nat},
    arrayWords m ++ k = arrayWords n ++ l → m = n ∧ k = l
  | 0, 0, h => ⟨rfl, h⟩
  | 0, n + 1, h => by
    rw [arrayWords_succ, List.append_assoc] at h
    exact absurd h (hk.ne_arraySuffix _)
  | m + 1, 0, h => by
    rw [arrayWords_succ, List.append_assoc] at h
    exact absurd h.symm (hl.ne_arraySuffix _)
  | m + 1, n + 1, h => by
    simp only [arrayWords_succ, List.append_assoc, List.append_cancel_left_eq] at h
    obtain ⟨rfl, hkl⟩ := arrayWords_append_inj hk hl h
    exact ⟨rfl, hkl⟩

/-- The type, with any number of arrays around it, is told from other types in the place of a
factor. -/
def ToldAsFactor (t : Ty) : Prop :=
  ∀ ⦃n : Nat⦄ ⦃u : Ty⦄ ⦃k l : List Char⦄, u.Normal → EndsFactor k → EndsFactor l →
    t.operand ++ (arrayWords n ++ k) = u.operand ++ l → arrays n t = u ∧ k = l

theorem ToldAsFactor.told (h : t.ToldAsFactor) : Told operand EndsFactor t :=
  fun _ _ _ hu hk hl he => h (n := 0) hu hk hl he

theorem ToldAsFactor.array (h : t.ToldAsFactor) : (array t).ToldAsFactor := by
  intro n u k l hu hk hl he
  refine h (n := n + 1) hu hk hl ?_
  rw [arrayWords_succ, ← he, operand_array]
  simp only [List.append_assoc]

/-- It is enough to tell the type from those that are no arrays. -/
theorem toldAsFactor_of (h : ∀ ⦃u : Ty⦄ ⦃k l : List Char⦄, u.Normal → (∀ e, u ≠ array e) →
    t.operand ++ k = u.operand ++ l → t = u ∧ k = l) : t.ToldAsFactor := by
  intro n u k l hu hk hl he
  obtain ⟨m, c, rfl, hc⟩ := exists_arrays u
  rw [operand_arrays, List.append_assoc] at he
  obtain ⟨rfl, hw⟩ := h (normal_of_arrays hu) hc he
  obtain ⟨rfl, hkl⟩ := arrayWords_append_inj hk hl hw
  exact ⟨rfl, hkl⟩

theorem name_append_inj {b c : Basic} (h : b.name ++ k = c.name ++ l) : b = c ∧ k = l := by
  cases b <;> cases c <;> simp_all [Basic.name]

theorem name_append_ne (b : Basic) (cs k l : List Char) : b.name ++ k ≠ inParens cs ++ l := by
  cases b <;> simp [Basic.name, inParens]

theorem toldAsFactor_basic (b : Basic) : (basic b).ToldAsFactor := by
  refine toldAsFactor_of ?_
  intro u k l hu hne he
  cases hu with
  | basic c =>
    obtain ⟨rfl, hkl⟩ := name_append_inj he
    exact ⟨rfl, hkl⟩
  | array _ => exact absurd rfl (hne _)
  | tuple _ _ => exact absurd he (name_append_ne b _ k l)
  | func _ _ _ _ => exact absurd he (name_append_ne b _ k l)

theorem toldAsFactor_of_inParens (ho : t.operand = inParens t.chars) (h : Told chars Closes t) :
    t.ToldAsFactor := by
  have hparens : ∀ ⦃u : Ty⦄ ⦃k l : List Char⦄, u.Normal →
      inParens t.chars ++ k = inParens u.chars ++ l → t = u ∧ k = l := by
    intro u k l hu he
    simp only [inParens, List.cons_append, List.append_assoc, List.cons.injEq, true_and,
      List.nil_append] at he
    obtain ⟨rfl, hkl⟩ := h hu (closes_cons k) (closes_cons l) he
    exact ⟨rfl, List.cons.inj hkl |>.2⟩
  refine toldAsFactor_of ?_
  intro u k l hu hne he
  rw [ho] at he
  cases id hu with
  | basic c => exact absurd he.symm (name_append_ne c _ l k)
  | array _ => exact absurd rfl (hne _)
  | tuple _ _ => exact hparens hu he
  | func _ _ _ _ => exact hparens hu he

/-! ### Types -/

/-- The type is told from others in every place. -/
structure ToldEverywhere (t : Ty) : Prop where
  factor : t.ToldAsFactor
  step : Told param EndsStep t
  whole : Told chars Closes t

/-- **The written form of a type in normal form determines it**, whatever closes it. -/
theorem Normal.told (h : t.Normal) : t.ToldEverywhere := by
  -- where a type needs parentheses it is told by its whole text, so each form has its own order of
  -- the three places
  induction id h with
  | basic b =>
    have hf := toldAsFactor_basic b
    have hs := h.told_param (List.forall_mem_singleton.2 hf.told)
    exact ⟨hf, hs, h.told_chars (List.forall_mem_singleton.2 hs)⟩
  | array ht ih =>
    have hf := (ih ht).factor.array
    have hs := h.told_param (List.forall_mem_singleton.2 hf.told)
    exact ⟨hf, hs, h.told_chars (List.forall_mem_singleton.2 hs)⟩
  | tuple hn hts ih =>
    have hs := h.told_param fun t ht => (ih t ht (hts t ht)).factor.told
    have hw := h.told_chars (List.forall_mem_singleton.2 hs)
    exact ⟨toldAsFactor_of_inParens rfl hw, hs, hw⟩
  | func hn hps hr hf ihp ihr =>
    have hw := h.told_chars (List.forall_mem_append.2
      ⟨fun p hp => (ihp p hp (hps p hp)).step, List.forall_mem_singleton.2 (ihr hr).step⟩)
    have hf := toldAsFactor_of_inParens rfl hw
    exact ⟨hf, h.told_param (List.forall_mem_singleton.2 hf.told), hw⟩

/-- **Types are written in the same way exactly if they are equal after flattening**, if they have
no variables and their tuples and functions have the parts they need. -/
theorem chars_eq_iff (ht : t.Ample) (hu : u.Ample) (hrt : t.isResolved = true)
    (hru : u.isResolved = true) : t.chars = u.chars ↔ t.flatten = u.flatten := by
  refine ⟨fun h => ?_, fun h => by rw [← chars_flatten t, h, chars_flatten]⟩
  have htold := (ht.normal_flatten hrt).told.whole
  refine (htold (hu.normal_flatten hru) (k := []) (l := []) nofun nofun ?_).1
  rw [chars_flatten, chars_flatten, h]

end Ty

end SmallMl
