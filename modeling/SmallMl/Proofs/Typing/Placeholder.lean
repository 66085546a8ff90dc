import SmallMl.Proofs.Typing.Currying
import SmallMl.Proofs.Typing.Refinement
import SmallMl.Typing.FreshName

/-!
# What shows that a variable is left

A type that is not complete shows it in three ways: it is not resolved, the mark of a variable
stands in its text, and if it comes down to a variable it has no letter.

Each of the three can be found out on the cells themselves, without an expansion: a search that goes
from level to level in underlying types (`Store.Searches`), a writer that goes through the forms and
follows references (`Store.Writes`), and the letters along references (`Store.Marks`).  On finite
cells there is one function of each kind (`Store.searches_iff`, `Store.writes_iff`,
`Store.marks_iff`), so the search and the writer come to the same variables
(`Registry.unresolved_iff_placeholder`).
-/

namespace SmallMl

open Relation (ReflTransGen)

/-! ### The mark of a variable in the text of a type -/

namespace Ty

variable {t p r : Ty} {ts ps : List Ty}

theorem infix_enclosed (b : Bool) (cs : List Char) : cs <:+: if b then inParens cs else cs := by
  cases b with
  | true => exact ⟨['('], [')'], rfl⟩
  | false => exact List.infix_rfl

theorem infix_intercalate {sep cs : List Char} {css : List (List Char)} (h : cs ∈ css) :
    cs <:+: sep.intercalate css := by
  induction css with
  | nil => cases h
  | cons ds css ih =>
    cases css with
    | nil =>
      obtain rfl := List.mem_singleton.1 h
      exact ⟨[], [], by simp⟩
    | cons es css =>
      rw [List.intercalate_cons_cons]
      rcases List.mem_cons.1 h with rfl | h
      · exact (List.prefix_append _ _).isInfix.trans (List.prefix_append _ _).isInfix
      · exact (ih h).trans (List.suffix_append _ _).isInfix

/-! A type contains the texts of its parts. -/

theorem chars_infix_array (t : Ty) : t.chars <:+: (array t).chars := by
  rw [chars_array]
  exact (infix_enclosed _ t.chars).trans (List.prefix_append _ _).isInfix

theorem chars_infix_tuple (h : t ∈ ts) : t.chars <:+: (tuple ts).chars := by
  rw [chars_tuple]
  exact (infix_enclosed _ t.chars).trans (infix_intercalate (List.mem_map_of_mem h))

theorem chars_infix_func_param (h : p ∈ ps) : p.chars <:+: (func ps r).chars := by
  have hp : p.param ++ arrow <:+: ps.flatMap fun p => p.param ++ arrow :=
    List.infix_of_mem_flatten (List.mem_map_of_mem h)
  rw [chars_func]
  exact (infix_enclosed _ p.chars).trans ((List.prefix_append _ _).isInfix.trans
    (hp.trans (List.prefix_append _ _).isInfix))

theorem chars_infix_func_result : r.chars <:+: (func ps r).chars := by
  rw [chars_func]
  exact (List.suffix_append _ _).isInfix

/-- Where a variable is left, its mark is shown. -/
theorem infix_placeholder (h : t.isResolved = false) : placeholder <:+: t.chars := by
  induction t with
  | basic b => cases h
  | var v => exact List.infix_rfl
  | array t ih => exact (ih h).trans (chars_infix_array t)
  | tuple ts ih =>
    rw [isResolved, allResolved_eq, List.all_eq_false] at h
    obtain ⟨t, ht, h⟩ := h
    exact (ih t ht (Bool.eq_false_iff.2 h)).trans (chars_infix_tuple ht)
  | func ps r ihp ihr =>
    rw [isResolved, allResolved_eq, Bool.and_eq_false_iff, List.all_eq_false] at h
    rcases h with ⟨p, hp, h⟩ | h
    · exact (ihp p hp (Bool.eq_false_iff.2 h)).trans (chars_infix_func_param hp)
    · exact (ihr h).trans chars_infix_func_result

theorem quote_not_mem (h : t.isResolved = true) : '\'' ∉ t.chars := by
  have hname : ∀ b : Basic, b.name.all (· != '\'') = true := by
    intro b
    cases b <;> rfl
  have hvar : t.isResolved = false → placeholder.all (· != '\'') = true := by
    intro hf
    rw [h] at hf
    cases hf
  intro hc
  exact absurd (List.all_eq_true.1 (all_chars hname rfl hvar) _ hc) (by decide)

/-- **The mark of a variable is shown exactly if one is left.** -/
theorem isResolved_eq_false_iff : t.isResolved = false ↔ placeholder <:+: t.chars := by
  refine ⟨infix_placeholder, fun h => Bool.eq_false_iff.2 fun hr => ?_⟩
  exact quote_not_mem hr (h.subset (by simp [placeholder]))

end Ty

/-! ### Cells and their underlying types -/

namespace Cell

def isFunc : Cell → Bool
  | func _ _ _ => true
  | _ => false

def isTuple : Cell → Bool
  | tuple _ _ => true
  | _ => false

end Cell

namespace Resolutions

variable {σ : Resolutions} {c d : Cell}

theorem underlying_of_not_refers (h : Lawful σ) (hc : ∀ d, ¬ σ.Refers c d) :
    underlying σ c = c := by
  rcases ReflTransGen.cases_head (h.reaches_underlying c) with hu | ⟨d, hd, -⟩
  · exact hu.symm
  · exact absurd hd (hc d)

/-- A cell that is no resolved variable has the form of its expansion. -/
theorem isFunc_expand_of_not_refers (hc : ∀ d, ¬ σ.Refers c d) :
    (expand σ c).isFunc = c.isFunc := by
  cases c with
  | var v => rw [expand_var_of_not_refers hc]; rfl
  | _ => simp [Ty.isFunc, Cell.isFunc]

theorem isTuple_expand_of_not_refers (hc : ∀ d, ¬ σ.Refers c d) :
    (expand σ c).isTuple = c.isTuple := by
  cases c with
  | var v => rw [expand_var_of_not_refers hc]; rfl
  | _ => simp [Ty.isTuple, Cell.isTuple]

theorem Lawful.isFunc_expand (h : Lawful σ) (hf : σ.Finite c) :
    (expand σ c).isFunc = (underlying σ c).isFunc := by
  rw [← h.expand_underlying hf, isFunc_expand_of_not_refers (h.not_refers_underlying c)]

theorem Lawful.isTuple_expand (h : Lawful σ) (hf : σ.Finite c) :
    (expand σ c).isTuple = (underlying σ c).isTuple := by
  rw [← h.expand_underlying hf, isTuple_expand_of_not_refers (h.not_refers_underlying c)]

/-- Finite cells on which two functions agree if they agree on what the cell holds. -/
theorem Lawful.funext_finite {α : Type} {f g : Cell → α} (h : Lawful σ)
    (hfin : ∀ c, σ.Finite c) (hfg : ∀ c, (∀ d, σ.Holds c d → f d = g d) → f c = g c) : f = g :=
  funext fun c => h.induct_finite (fun c _ hc => hfg c hc) (hfin c)

end Resolutions

/-! ### Functions on cells -/

namespace Store

/-- One level of a search for variables: a variable is found, and any other type has none if its
parts have none. -/
def resolvedAt (f : Cell → Bool) : Cell → Bool
  | .basic _ => true
  | .var _ => false
  | .array _ e => f e
  | .tuple _ es => es.all f
  | .func _ ps r => ps.all f && f r

/-- The function searches types for free variables level by level, each level in the underlying
type. -/
def Searches (s : Store) (f : Cell → Bool) : Prop := ∀ c, f c = resolvedAt f (s.underlying c)

def operand (s : Store) (f : Cell → List Char) (c : Cell) : List Char :=
  if (s.underlying c).isFunc || (s.underlying c).isTuple then Ty.inParens (f c) else f c

def param (s : Store) (f : Cell → List Char) (c : Cell) : List Char :=
  if (s.underlying c).isFunc then Ty.inParens (f c) else f c

/-- The function writes types form by form, and what it writes for a resolved variable is what it
writes for the target. -/
structure Writes (s : Store) (f : Cell → List Char) : Prop where
  basic : ∀ b, f (.basic b) = b.name
  free : ∀ v, s.target? v = none → f (.var v) = Ty.placeholder
  resolved : ∀ v c, s.target? v = some c → f (.var v) = f c
  array : ∀ i e, f (.array i e) = s.operand f e ++ Ty.arraySuffix
  tuple : ∀ i es, f (.tuple i es) = Ty.star.intercalate (es.map (s.operand f))
  func : ∀ i ps r, f (.func i ps r) = (ps.flatMap fun p => s.param f p ++ Ty.arrow) ++ f r

/-- The function gives the letters of types, for a resolved variable that of the target; a free
variable has none. -/
structure Marks (s : Store) (f : Cell → Except Misuse Char) : Prop where
  basic : ∀ b, f (.basic b) = .ok b.letter
  free : ∀ v, s.target? v = none → f (.var v) = .error .codeOfVariable
  resolved : ∀ v c, s.target? v = some c → f (.var v) = f c
  array : ∀ i e, f (.array i e) = .ok 'a'
  tuple : ∀ i es, f (.tuple i es) = .ok 't'
  func : ∀ i ps r, f (.func i ps r) = .ok 'f'

variable {s : Store} {c : Cell}

theorem resolvedAt_congr {f g : Cell → Bool} (h : ∀ d ∈ c.parts, f d = g d) :
    resolvedAt f c = resolvedAt g c := by
  have hall : ∀ es : List Cell, (∀ d ∈ es, f d = g d) → es.all f = es.all g := by
    intro es hes
    rw [Bool.eq_iff_iff, List.all_eq_true, List.all_eq_true]
    exact forall₂_congr fun d hd => by rw [hes d hd]
  cases c with
  | basic b => rfl
  | var v => rfl
  | array i e => exact h e (List.mem_singleton_self e)
  | tuple i es => exact hall es h
  | func i ps r =>
    rw [resolvedAt, resolvedAt, hall ps fun p hp => h p (List.mem_append_left _ hp),
      h r (by simp [Cell.parts])]

section

variable (h : s.resolutions.Lawful)

include h

/-! #### The search -/

theorem searches_isResolved (hfin : ∀ c, s.resolutions.Finite c) : s.Searches s.isResolved := by
  intro c
  have hu : s.expand (s.underlying c) = s.expand c := h.expand_underlying (hfin c)
  have hfree : ∀ d, ¬ s.resolutions.Refers (s.underlying c) d := h.not_refers_underlying c
  rw [isResolved, ← hu]
  generalize s.underlying c = u at hfree
  cases u with
  | basic b => simp [expand, resolvedAt, Ty.isResolved]
  | var v =>
    have hv : s.expand (.var v) = .var v := Resolutions.expand_var_of_not_refers hfree
    simp [hv, resolvedAt, Ty.isResolved]
  | array i e => simp [expand, resolvedAt, Ty.isResolved, isResolved]
  | tuple i es =>
    simp only [expand, Resolutions.expand_tuple, Ty.isResolved, Ty.allResolved_eq, List.all_map,
      resolvedAt]
    rfl
  | func i ps r =>
    simp only [expand, Resolutions.expand_func, Ty.isResolved, Ty.allResolved_eq, List.all_map,
      resolvedAt]
    rfl

/-- **There is one search**, and it finds out whether a variable is left in the expansion. -/
theorem searches_iff (hfin : ∀ c, s.resolutions.Finite c) {f : Cell → Bool} :
    s.Searches f ↔ f = s.isResolved := by
  have hs := searches_isResolved h hfin
  refine ⟨fun hf => h.funext_finite hfin fun c hc => ?_, fun hf => hf ▸ hs⟩
  by_cases hr : ∃ d, s.resolutions.Refers c d
  · -- a resolved variable and its target have the same underlying type
    obtain ⟨d, hd⟩ := hr
    have hu : s.underlying c = s.underlying d := h.underlying_of_refers hd
    rw [hf c, hs c, hu, ← hf d, ← hs d]
    exact hc d (.inr hd)
  · have hu : s.underlying c = c :=
      Resolutions.underlying_of_not_refers h fun d hd => hr ⟨d, hd⟩
    rw [hf c, hs c, hu]
    exact resolvedAt_congr fun d hd => hc d (.inl hd)

/-! #### The writer -/

theorem operand_expand (hf : s.resolutions.Finite c) :
    (s.expand c).operand = s.operand (fun d => (s.expand d).chars) c := by
  have h₁ : (s.expand c).isFunc = (s.underlying c).isFunc := h.isFunc_expand hf
  have h₂ : (s.expand c).isTuple = (s.underlying c).isTuple := h.isTuple_expand hf
  rw [operand, Ty.operand, h₁, h₂]

theorem param_expand (hf : s.resolutions.Finite c) :
    (s.expand c).param = s.param (fun d => (s.expand d).chars) c := by
  have h₁ : (s.expand c).isFunc = (s.underlying c).isFunc := h.isFunc_expand hf
  rw [param, Ty.param, h₁]

theorem writes_chars (hfin : ∀ c, s.resolutions.Finite c) :
    s.Writes fun c => (s.expand c).chars := by
  have hu := unfolds_expand h hfin
  constructor
  case basic =>
    intro b
    rw [hu.basic, Ty.chars]
  case free =>
    intro v hv
    rw [hu.free v hv, Ty.chars]
  case resolved =>
    intro v c hv
    rw [hu.resolved v c hv]
  case array =>
    intro i e
    rw [hu.array, Ty.chars_array, operand_expand h (hfin e)]
  case tuple =>
    intro i es
    rw [hu.tuple, Ty.chars_tuple, List.map_map]
    exact congrArg _ (List.map_congr_left fun e _ => operand_expand h (hfin e))
  case func =>
    intro i ps r
    rw [hu.func, Ty.chars_func, List.flatMap_map]
    congr 2
    exact funext fun p => by rw [param_expand h (hfin p)]

theorem writes_iff (hfin : ∀ c, s.resolutions.Finite c) {f : Cell → List Char} :
    s.Writes f ↔ f = fun c => (s.render c).toList := by
  have hw := writes_chars h hfin
  have hr : (fun c => (s.render c).toList) = fun c => (s.expand c).chars :=
    funext fun c => String.toList_ofList
  rw [hr]
  refine ⟨fun hf => h.funext_finite hfin fun c hc => ?_, fun hf => hf ▸ hw⟩
  have hparts : ∀ d ∈ c.parts, f d = (s.expand d).chars := fun d hd => hc d (.inl hd)
  have hoperand : ∀ d ∈ c.parts, s.operand f d = s.operand (fun d => (s.expand d).chars) d := by
    intro d hd
    rw [operand, operand, hparts d hd]
  cases c with
  | basic b => exact (hf.basic b).trans (hw.basic b).symm
  | var v =>
    cases hv : s.target? v with
    | none => exact (hf.free v hv).trans (hw.free v hv).symm
    | some d =>
      rw [hf.resolved v d hv, hc d (.inr ⟨v, rfl, hv⟩)]
      exact (hw.resolved v d hv).symm
  | array i e =>
    rw [hf.array, hoperand e (List.mem_singleton_self e)]
    exact (hw.array i e).symm
  | tuple i es =>
    have hes : es.map (s.operand f) = es.map (s.operand fun d => (s.expand d).chars) :=
      List.map_congr_left hoperand
    rw [hf.tuple, hes]
    exact (hw.tuple i es).symm
  | func i ps r =>
    have hps : ∀ p ∈ ps, s.param f p ++ Ty.arrow
        = s.param (fun d => (s.expand d).chars) p ++ Ty.arrow := by
      intro p hp
      rw [param, param, hparts p (List.mem_append_left _ hp)]
    rw [hf.func, hparts r (by simp [Cell.parts]), List.flatMap_congr hps]
    exact (hw.func i ps r).symm

/-! #### The letters -/

theorem marks_letter : s.Marks s.letter := by
  have hself : ∀ c, (∀ v, c ≠ .var v) → s.underlying c = c := by
    intro c hc
    refine Resolutions.underlying_of_not_refers h ?_
    rintro d ⟨v, hv, -⟩
    exact hc v hv
  constructor
  case basic =>
    intro b
    rw [letter, hself _ (by simp)]
  case free =>
    intro v hv
    have hu : s.underlying (.var v) = .var v := Resolutions.underlying_var_of_none hv
    rw [letter, hu]
  case resolved =>
    intro v c hv
    have hu : s.underlying (.var v) = s.underlying c := h.underlying_of_refers ⟨v, rfl, hv⟩
    rw [letter, letter, hu]
  case array =>
    intro i e
    rw [letter, hself _ (by simp)]
  case tuple =>
    intro i es
    rw [letter, hself _ (by simp)]
  case func =>
    intro i ps r
    rw [letter, hself _ (by simp)]

theorem marks_iff (hfin : ∀ c, s.resolutions.Finite c) {f : Cell → Except Misuse Char} :
    s.Marks f ↔ f = s.letter := by
  have hm := marks_letter h
  refine ⟨fun hf => h.funext_finite hfin fun c hc => ?_, fun hf => hf ▸ hm⟩
  cases c with
  | basic b => rw [hf.basic, hm.basic]
  | var v =>
    cases hv : s.target? v with
    | none => rw [hf.free v hv, hm.free v hv]
    | some d => rw [hf.resolved v d hv, hm.resolved v d hv, hc d (.inr ⟨v, rfl, hv⟩)]
  | array i e => rw [hf.array, hm.array]
  | tuple i es => rw [hf.tuple, hm.tuple]
  | func i ps r => rw [hf.func, hm.func]

/-- **A type has no letter exactly if it comes down to a free variable.** -/
theorem letter_eq_error_iff {e : Misuse} :
    s.letter c = .error e ↔
      e = .codeOfVariable ∧ ∃ v, s.underlying c = .var v ∧ s.target? v = none := by
  have hfree : ∀ v, s.underlying c = .var v → s.target? v = none := fun _ =>
    h.lookup_of_underlying
  rw [letter]
  cases hu : s.underlying c with
  | var v => simp [hfree v hu, eq_comm]
  | _ => simp

end

/-- A type without free variables has a letter, so a temporary can be named after it. -/
theorem exists_temporary (h : s.resolutions.Lawful) (hf : s.resolutions.Finite c)
    (hr : s.isResolved c = true) (g : NameSupply) :
    ∃ n, g.temporary s c = .ok (n, g.succ) := by
  rw [NameSupply.temporary]
  cases hl : s.letter c with
  | ok l => exact ⟨_, rfl⟩
  | error e =>
    obtain ⟨-, v, hu, -⟩ := (letter_eq_error_iff h).1 hl
    exact absurd hu (underlying_ne_of_isResolved h hf hr v)

end Store

/-! ### Types of a registry -/

namespace Registry

/-- **The search for variables agrees with the writer.**  Let no type of the registry contain
itself.  Then there is one way to search types level by level, one to write them and one to mark
them with letters.  A variable is found in a type exactly if its mark stands in the text.  A type
has no letter exactly if it comes down to a free variable, so a temporary can be named after every
type without free variables. -/
theorem unresolved_iff_placeholder (qs : List Request) (hf : (run qs).IsFinite) :
    (∀ f, (run qs).store.Searches f ↔ f = (run qs).store.isResolved) ∧
      (∀ f, (run qs).store.Writes f ↔ f = fun c => ((run qs).store.render c).toList) ∧
      (∀ f, (run qs).store.Marks f ↔ f = (run qs).store.letter) ∧
      ∀ c, ((run qs).store.isResolved c = false ↔
          Ty.placeholder <:+: ((run qs).store.render c).toList) ∧
        (∀ e, (run qs).store.letter c = .error e ↔ e = .codeOfVariable ∧
          ∃ v, (run qs).store.underlying c = .var v ∧ (run qs).store.target? v = none) ∧
        ((run qs).store.isResolved c = true → ∀ g : NameSupply,
          ∃ n, g.temporary (run qs).store c = .ok (n, g.succ)) := by
  have h := (sound_run qs).lawful
  have hfin := (sound_run qs).finite hf
  refine ⟨fun f => Store.searches_iff h hfin, fun f => Store.writes_iff h hfin,
    fun f => Store.marks_iff h hfin, fun c => ⟨?_, ?_, ?_⟩⟩
  · rw [Store.isResolved, Ty.isResolved_eq_false_iff, Store.render, Ty.render, String.toList_ofList]
  · exact fun e => Store.letter_eq_error_iff h
  · exact fun hr g => Store.exists_temporary h (hfin c) hr g

/-- A variable that was resolved to another one, and a function from arrays of the first to `int`,
in a tuple. -/
def openTuple : List Request :=
  [.basic .int, .var, .var, .resolve 1 2, .array 1, .func [3] 0, .tuple [4, 0]]

/-- The variable is found behind the reference, and the tuple has a letter all the same. -/
theorem unresolved_iff_placeholder_of_tuple :
    (run openTuple).IsFinite ∧
      (run openTuple).types[5]? =
        some (.tuple 4 [.func 3 [.array 2 (.var 0)] (.basic .int), .basic .int]) ∧
      (run openTuple).store.render
        (.tuple 4 [.func 3 [.array 2 (.var 0)] (.basic .int), .basic .int]) =
          "('_ array -> int) * int" ∧
      (run openTuple).store.isResolved
        (.tuple 4 [.func 3 [.array 2 (.var 0)] (.basic .int), .basic .int]) = false ∧
      (run openTuple).store.letter (.var 0) = .error .codeOfVariable := by
  have hfin : (run openTuple).IsFinite := (sound_run openTuple).isFinite_of_forall_mem
    (List.forall_mem_cons.2 ⟨rfl, nofun⟩)
  have h := (unresolved_iff_placeholder openTuple hfin).2.2.2
  refine ⟨hfin, rfl, by decide, (h _).1.2 ?_, ((h (.var 0)).2.1 _).2 ⟨rfl, 1, rfl, rfl⟩⟩
  exact ⟨['('], " array -> int) * int".toList, by decide⟩

end Registry

end SmallMl
