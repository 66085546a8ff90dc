import SmallMl.Proofs.Typing.Substitution
import Mathlib.Data.List.Basic

/-!
# Functions with all their parameters

A function whose result is a function is written like one function with the parameters of both.
`Ty.flatten` makes it one function, at every depth; it does not change the written form
(`Ty.chars_flatten`).  In the flattened form of a type without variables no function has a function
as its result (`Ty.Ample.normal_flatten`).

`Ty.all_chars` says which characters a written form has.
-/

namespace SmallMl

namespace Ty

/-- The function with the parameters `ps` in front of those that the result takes. -/
def curry (ps : List Ty) : Ty → Ty
  | func qs r => func (ps ++ qs) r
  | r => func ps r

mutual

/-- The type with every function whose result is a function as a function of all the parameters. -/
def flatten : Ty → Ty
  | basic b => basic b
  | var v => var v
  | array elem => array elem.flatten
  | tuple elems => tuple (flattenAll elems)
  | func params result => curry (flattenAll params) result.flatten

def flattenAll : List Ty → List Ty
  | [] => []
  | t :: ts => t.flatten :: flattenAll ts

end

/-- Every tuple has at least two elements and every function at least one parameter. -/
inductive Ample : Ty → Prop
  | basic (b : Basic) : Ample (basic b)
  | var (v : Nat) : Ample (var v)
  | array {t : Ty} : Ample t → Ample (array t)
  | tuple {ts : List Ty} : 2 ≤ ts.length → (∀ t ∈ ts, Ample t) → Ample (tuple ts)
  | func {ps : List Ty} {r : Ty} : ps ≠ [] → (∀ p ∈ ps, Ample p) → Ample r → Ample (func ps r)

/-- There are no variables, tuples and functions have the parts they need, and no function has a
function as its result. -/
inductive Normal : Ty → Prop
  | basic (b : Basic) : Normal (basic b)
  | array {t : Ty} : Normal t → Normal (array t)
  | tuple {ts : List Ty} : 2 ≤ ts.length → (∀ t ∈ ts, Normal t) → Normal (tuple ts)
  | func {ps : List Ty} {r : Ty} : ps ≠ [] → (∀ p ∈ ps, Normal p) → Normal r →
      r.isFunc = false → Normal (func ps r)

/-- The written form in the place of an element of a tuple or an array. -/
def operand (t : Ty) : List Char := if t.isFunc || t.isTuple then inParens t.chars else t.chars

/-- The written form in the place of a parameter. -/
def param (t : Ty) : List Char := if t.isFunc then inParens t.chars else t.chars

variable {t r : Ty} {ps : List Ty}

/-! ### The written form, form by form -/

theorem chars_array (t : Ty) : (array t).chars = t.operand ++ arraySuffix := rfl

theorem elemsChars_eq : ∀ ts : List Ty, elemsChars ts = star.intercalate (ts.map operand)
  | [] => rfl
  | [t] => by simp [elemsChars, operand]
  | t :: u :: ts => by
    have h : elemsChars (t :: u :: ts) = t.operand ++ star ++ elemsChars (u :: ts) := rfl
    simp only [h, elemsChars_eq (u :: ts), List.map_cons, List.intercalate_cons_cons,
      List.append_assoc]

theorem paramsChars_eq (ps : List Ty) :
    paramsChars ps = ps.flatMap fun p => p.param ++ arrow := by
  induction ps with
  | nil => rfl
  | cons p ps ih => rw [paramsChars, ih, List.flatMap_cons, param]

theorem chars_tuple (ts : List Ty) :
    (tuple ts).chars = star.intercalate (ts.map operand) := elemsChars_eq ts

theorem chars_func (ps : List Ty) (r : Ty) :
    (func ps r).chars = (ps.flatMap fun p => p.param ++ arrow) ++ r.chars := by
  rw [chars, paramsChars_eq]

/-! ### Its characters -/

theorem all_enclosed {p : Char → Bool} {b : Bool} {cs : List Char} (hl : p '(' = true)
    (hr : p ')' = true) (h : cs.all p = true) :
    (if b then inParens cs else cs).all p = true := by
  cases b with
  | true => simp [inParens, hl, hr, h]
  | false => exact h

theorem all_intercalate {p : Char → Bool} {sep : List Char} {css : List (List Char)}
    (hsep : sep.all p = true) (h : ∀ cs ∈ css, cs.all p = true) :
    (sep.intercalate css).all p = true := by
  induction css with
  | nil => rfl
  | cons cs css ih =>
    obtain ⟨hcs, hcss⟩ := List.forall_mem_cons.1 h
    cases css with
    | nil => simpa using hcs
    | cons ds css =>
      rw [List.intercalate_cons_cons, List.all_append, List.all_append, hcs, hsep, ih hcss]
      rfl

/-- What stands between the names of a written form. -/
def separators : List Char := inParens [] ++ arrow ++ star ++ arraySuffix

/-- **A written form consists of names, of what stands between them and, where a variable is left,
of its mark.** -/
theorem all_chars {p : Char → Bool} (hname : ∀ b : Basic, b.name.all p = true)
    (hsep : separators.all p = true) (hvar : t.isResolved = false → placeholder.all p = true) :
    t.chars.all p = true := by
  have hparts := hsep
  simp only [separators, inParens, List.all_append, List.all_cons, List.all_nil,
    Bool.and_eq_true] at hparts
  obtain ⟨⟨⟨⟨⟨hl, -⟩, hr, -⟩, harrow⟩, hstar⟩, hsuffix⟩ := hparts
  induction t with
  | basic b => exact hname b
  | var v => exact hvar rfl
  | array t ih =>
    have ht : t.operand.all p = true := all_enclosed hl hr (ih hvar)
    rw [chars_array, List.all_append, ht, hsuffix]
    rfl
  | tuple ts ih =>
    rw [chars_tuple]
    refine all_intercalate hstar fun cs hcs => ?_
    obtain ⟨t, ht, rfl⟩ := List.mem_map.1 hcs
    refine all_enclosed hl hr (ih t ht fun h => hvar ?_)
    rw [isResolved, allResolved_eq, List.all_eq_false]
    exact ⟨t, ht, by simp [h]⟩
  | func ps r ihp ihr =>
    have hps : (ps.flatMap fun p => p.param ++ arrow).all p = true := by
      rw [List.all_flatMap, List.all_eq_true]
      intro u hu
      have hu' : u.param.all p = true := by
        refine all_enclosed hl hr (ihp u hu fun h => hvar ?_)
        rw [isResolved, allResolved_eq, Bool.and_eq_false_iff, List.all_eq_false]
        exact .inl ⟨u, hu, by simp [h]⟩
      rw [List.all_append, hu', harrow]
      rfl
    have hr' := ihr fun h => hvar (by rw [isResolved, h, Bool.and_false])
    rw [chars_func, List.all_append, hps, hr']
    rfl

/-! ### Flattening -/

@[simp] theorem flattenAll_eq (ts : List Ty) : flattenAll ts = ts.map flatten := by
  induction ts with
  | nil => rfl
  | cons t ts ih => rw [flattenAll, ih, List.map_cons]

@[simp] theorem isFunc_curry (ps : List Ty) (r : Ty) : (curry ps r).isFunc = true := by
  cases r <;> rfl

@[simp] theorem isTuple_curry (ps : List Ty) (r : Ty) : (curry ps r).isTuple = false := by
  cases r <;> rfl

@[simp] theorem isFunc_flatten (t : Ty) : t.flatten.isFunc = t.isFunc := by
  cases t with
  | func ps r => exact isFunc_curry _ _
  | _ => rfl

@[simp] theorem isTuple_flatten (t : Ty) : t.flatten.isTuple = t.isTuple := by
  cases t with
  | func ps r => exact isTuple_curry _ _
  | _ => rfl

@[simp] theorem isResolved_curry (ps : List Ty) (r : Ty) :
    (curry ps r).isResolved = (ps.all isResolved && r.isResolved) := by
  cases r with
  | func qs r =>
    simp only [curry, isResolved, allResolved_eq, List.all_append, Bool.and_assoc]
  | _ => simp only [curry, isResolved, allResolved_eq]

@[simp] theorem isResolved_flatten (t : Ty) : t.flatten.isResolved = t.isResolved := by
  have hmap : ∀ ts : List Ty, (∀ t ∈ ts, t.flatten.isResolved = t.isResolved) →
      (ts.map flatten).all isResolved = ts.all isResolved := by
    intro ts ih
    rw [List.all_map, Bool.eq_iff_iff, List.all_eq_true, List.all_eq_true]
    exact forall₂_congr fun t ht => by rw [Function.comp_apply, ih t ht]
  induction t with
  | basic b => rfl
  | var v => rfl
  | array t ih => exact ih
  | tuple ts ih => simp only [flatten, flattenAll_eq, isResolved, allResolved_eq, hmap ts ih]
  | func ps r ihp ihr =>
    rw [flatten, flattenAll_eq, isResolved_curry, hmap ps ihp, ihr, isResolved, allResolved_eq]

/-- The parameters of both functions are written in one row. -/
theorem chars_curry (ps : List Ty) (r : Ty) :
    (curry ps r).chars = (ps.flatMap fun p => p.param ++ arrow) ++ r.chars := by
  cases r with
  | func qs r => rw [curry, chars_func, chars_func, List.flatMap_append, List.append_assoc]
  | _ => exact chars_func ps _

/-- **Flattening does not change the written form.** -/
theorem chars_flatten (t : Ty) : t.flatten.chars = t.chars := by
  induction t with
  | basic b => rfl
  | var v => rfl
  | array t ih => simp [flatten, chars_array, operand, ih]
  | tuple ts ih =>
    have hmap : (ts.map flatten).map operand = ts.map operand := by
      rw [List.map_map]
      exact List.map_congr_left fun t ht => by simp [operand, ih t ht]
    rw [flatten, flattenAll_eq, chars_tuple, hmap, chars_tuple]
  | func ps r ihp ihr =>
    have hmap : (ps.map flatten).flatMap (fun p => p.param ++ arrow) =
        ps.flatMap fun p => p.param ++ arrow := by
      rw [List.flatMap_map]
      exact List.flatMap_congr fun p hp => by simp [param, ihp p hp]
    rw [flatten, flattenAll_eq, chars_curry, hmap, ihr, chars_func]

theorem Normal.curry (hne : ps ≠ []) (hps : ∀ p ∈ ps, p.Normal) (hr : r.Normal) :
    (curry ps r).Normal := by
  cases hr with
  | func hqs hq hs hf =>
    exact .func (by simp [hne]) (List.forall_mem_append.2 ⟨hps, hq⟩) hs hf
  | basic b => exact .func hne hps (.basic b) rfl
  | array ht => exact .func hne hps (.array ht) rfl
  | tuple hn hts => exact .func hne hps (.tuple hn hts) rfl

/-- **After flattening, no function has a function as its result.** -/
theorem Ample.normal_flatten (h : t.Ample) (hr : t.isResolved = true) : t.flatten.Normal := by
  have hmap : ∀ ts : List Ty, (∀ t ∈ ts, t.isResolved = true → t.flatten.Normal) →
      ts.all isResolved = true → ∀ u ∈ ts.map flatten, u.Normal := by
    intro ts ih hr u hu
    obtain ⟨t, ht, rfl⟩ := List.mem_map.1 hu
    exact ih t ht (List.all_eq_true.1 hr t ht)
  induction h with
  | basic b => exact .basic b
  | var v => cases hr
  | array _ ih => exact .array (ih hr)
  | tuple hn _ ih =>
    simp only [isResolved, allResolved_eq] at hr
    rw [flatten, flattenAll_eq]
    exact .tuple (by simpa using hn) (hmap _ ih hr)
  | func hn _ _ ihp ihr =>
    simp only [isResolved, allResolved_eq, Bool.and_eq_true] at hr
    rw [flatten, flattenAll_eq]
    exact .curry (by simpa using hn) (hmap _ ihp hr.1) (ihr hr.2)

end Ty

end SmallMl
