import SmallMl.Proofs.Typing.Chains

/-!
# Histories of a store

A `Registry` is a store with the types that were made in it, in the order in which they were made.
A `Request` asks for one more type, made of types there are, or for the resolution of a variable.
Types are named by their places; a request that names no type changes nothing, and neither does one
that misuses a variable.  `Registry.run` answers requests one after the other.

`Registry.Step` collects what a request can do.  Every registry that requests lead to is `Sound`
(`Registry.sound_run`): a type is known by its number, the parts of types and the targets of
variables are types of the registry, and the resolutions are lawful.

The main result is that chains of variables end, whatever was asked for: a request to resolve a
variable is refused if it would close a chain, and else redirects the types that came down to the
variable (`Registry.chains_end`).
-/

namespace SmallMl

open Relation (ReflTransGen TransGen)

namespace Cell

def number? : Cell → Option Nat
  | basic _ => none
  | var i | array i _ | tuple i _ | func i _ _ => some i

def parts : Cell → List Cell
  | basic _ | var _ => []
  | array _ elem => [elem]
  | tuple _ elems => elems
  | func _ params result => params ++ [result]

theorem eq_or_number_of_same {c d : Cell} (h : c.same d = true) :
    c = d ∨ ∃ i, c.number? = some i ∧ d.number? = some i := by
  cases c <;> cases d <;> simp_all [same, number?]

end Cell

/-- Something asked of a registry; types are named by their places in it. -/
inductive Request
  | basic (b : Basic)
  | var
  | array (elem : Nat)
  | tuple (elems : List Nat)
  | func (params : List Nat) (result : Nat)
  | resolve (var target : Nat)

/-- A store and the types that were made in it. -/
structure Registry where
  store : Store
  types : List Cell

namespace Registry

def empty : Registry := ⟨.empty, []⟩

def add (r : Registry) (made : Cell × Store) : Registry := ⟨made.2, r.types ++ [made.1]⟩

def typesAt (r : Registry) (places : List Nat) : List Cell := places.filterMap (r.types[·]?)

def step (r : Registry) : Request → Registry
  | .basic b => r.add (.basic b, r.store)
  | .var => r.add r.store.newVar
  | .array elem =>
    match r.types[elem]? with
    | some c => r.add (r.store.newArray c)
    | none => r
  | .tuple elems => r.add (r.store.newTuple (r.typesAt elems))
  | .func params result =>
    match r.types[result]? with
    | some c => r.add (r.store.newFunc (r.typesAt params) c)
    | none => r
  | .resolve var target =>
    match r.types[var]?, r.types[target]? with
    | some (.var v), some c =>
      match r.store.resolve v c with
      | .ok s => { r with store := s }
      | .error _ => r
    | _, _ => r

def run (qs : List Request) : Registry := qs.foldl step empty

theorem run_append (qs ms : List Request) : run (qs ++ ms) = ms.foldl step (run qs) :=
  List.foldl_append

/-- What a request can do.  A type that has a number gets one that no type before it has. -/
inductive Step (r : Registry) : Registry → Prop
  | unchanged : Step r r
  | added {c : Cell} {s : Store} : s.resolutions = r.store.resolutions →
      r.store.made ≤ s.made → (∀ i ∈ c.number?, r.store.made ≤ i ∧ i < s.made) →
      (∀ d ∈ c.parts, d ∈ r.types) → Step r (r.add (c, s))
  | resolved {v : Nat} {c : Cell} {s : Store} : c ∈ r.types → r.store.resolve v c = .ok s →
      Step r { r with store := s }

structure Sound (r : Registry) : Prop where
  number_lt : ∀ c ∈ r.types, ∀ i ∈ c.number?, i < r.store.made
  eq_of_same : ∀ c ∈ r.types, ∀ d ∈ r.types, c.same d = true → c = d
  parts_mem : ∀ c ∈ r.types, ∀ d ∈ c.parts, d ∈ r.types
  target_mem : ∀ v c, r.store.target? v = some c → c ∈ r.types
  lawful : r.store.resolutions.Lawful

variable {r r' : Registry} {c d : Cell} {s : Store} {v : Nat}

/-! ### What a request does -/

theorem mem_types_of_mem_typesAt {places : List Nat} (h : c ∈ r.typesAt places) : c ∈ r.types := by
  obtain ⟨i, -, hi⟩ := List.mem_filterMap.1 h
  exact List.mem_of_getElem? hi

theorem step_resolve {i j : Nat} (hv : r.types[i]? = some (.var v)) (hc : r.types[j]? = some c) :
    r.step (.resolve i j) =
      match r.store.resolve v c with
      | .ok s => { r with store := s }
      | .error _ => r := by
  simp [step, hv, hc]

theorem Step.made (hn : c.number? = some r.store.made) (hp : ∀ d ∈ c.parts, d ∈ r.types) :
    r.Step (r.add (c, r.store.bump)) := by
  refine .added rfl (Nat.le_succ _) (fun i hi => ?_) hp
  obtain rfl := Option.some.inj (hn.symm.trans hi)
  exact ⟨Nat.le_refl _, Nat.lt_succ_self _⟩

theorem step_spec (r : Registry) (q : Request) : r.Step (r.step q) := by
  cases q with
  | basic b => exact .added rfl (Nat.le_refl _) nofun nofun
  | var => exact .made rfl nofun
  | array i =>
    rw [step]
    split
    · next c hc => exact .made rfl (by simpa [Cell.parts] using List.mem_of_getElem? hc)
    · exact .unchanged
  | tuple is => exact .made rfl fun d hd => mem_types_of_mem_typesAt hd
  | func is i =>
    rw [step]
    split
    · next c hc =>
      refine .made rfl fun d hd => ?_
      rcases List.mem_append.1 hd with hd | hd
      · exact mem_types_of_mem_typesAt hd
      · rw [List.mem_singleton.1 hd]
        exact List.mem_of_getElem? hc
    · exact .unchanged
  | resolve i j =>
    rw [step]
    split
    · next v c hv hc =>
      split
      · next s hs => exact .resolved (List.mem_of_getElem? hc) hs
      · exact .unchanged
    · exact .unchanged

/-! ### What every registry keeps -/

namespace Sound

theorem empty : Sound empty where
  number_lt := nofun
  eq_of_same := nofun
  parts_mem := nofun
  target_mem := nofun
  lawful := .nil

theorem added (h : r.Sound) (hs : s.resolutions = r.store.resolutions)
    (hm : r.store.made ≤ s.made) (hn : ∀ i ∈ c.number?, r.store.made ≤ i ∧ i < s.made)
    (hp : ∀ d ∈ c.parts, d ∈ r.types) : Sound (r.add (c, s)) where
  number_lt := by
    intro d hd i hi
    rcases List.mem_append.1 hd with hd | hd
    · exact Nat.lt_of_lt_of_le (h.number_lt d hd i hi) hm
    · obtain rfl := List.mem_singleton.1 hd
      exact (hn i hi).2
  eq_of_same := by
    -- the numbers of the types there were are below that of the new one
    have hne : ∀ d ∈ r.types, ∀ i, d.number? = some i → c.number? ≠ some i := fun d hd i hi hc =>
      Nat.not_lt.2 (hn i hc).1 (h.number_lt d hd i hi)
    intro a ha b hb hs
    rcases Cell.eq_or_number_of_same hs with rfl | ⟨i, hi, hj⟩
    · rfl
    rcases List.mem_append.1 ha with ha' | ha' <;> rcases List.mem_append.1 hb with hb' | hb'
    · exact h.eq_of_same a ha' b hb' hs
    · obtain rfl := List.mem_singleton.1 hb'
      exact absurd hj (hne a ha' i hi)
    · obtain rfl := List.mem_singleton.1 ha'
      exact absurd hi (hne b hb' i hj)
    · rw [List.mem_singleton.1 ha', List.mem_singleton.1 hb']
  parts_mem := by
    intro a ha d hd
    rcases List.mem_append.1 ha with ha | ha
    · exact List.mem_append_left _ (h.parts_mem a ha d hd)
    · obtain rfl := List.mem_singleton.1 ha
      exact List.mem_append_left _ (hp d hd)
  target_mem := by
    intro v d hv
    change s.resolutions.lookup v = some d at hv
    rw [hs] at hv
    exact List.mem_append_left _ (h.target_mem v d hv)
  lawful := hs ▸ h.lawful

theorem resolved (h : r.Sound) (hc : c ∈ r.types) (hs : r.store.resolve v c = .ok s) :
    Sound { r with store := s } where
  number_lt := by
    obtain ⟨_, _, rfl⟩ := Store.resolve_eq_ok_iff.1 hs
    exact h.number_lt
  eq_of_same := h.eq_of_same
  parts_mem := h.parts_mem
  target_mem := by
    intro w d hd
    rw [Store.target?_resolve hs] at hd
    split at hd
    · cases hd
      exact hc
    · exact h.target_mem w d hd
  lawful := Store.lawful_resolve h.lawful hs

theorem step (h : r.Sound) (hs : r.Step r') : r'.Sound := by
  cases hs with
  | unchanged => exact h
  | added hs hm hn hp => exact h.added hs hm hn hp
  | resolved hc hs => exact h.resolved hc hs

end Sound

theorem sound_run (qs : List Request) : (run qs).Sound := by
  have hrun : ∀ qs : List Request, ∀ r : Registry, r.Sound → (qs.foldl Registry.step r).Sound := by
    intro qs
    induction qs with
    | nil => exact fun _ h => h
    | cons q qs ih => exact fun r h => ih _ (h.step (r.step_spec q))
  exact hrun qs empty .empty

end Registry

/-! ### Chains of variables -/

/-- The cell is a variable that was resolved to `d`. -/
def Store.Refers (s : Store) (c d : Cell) : Prop := s.resolutions.Refers c d

/-- Following references ends, at the underlying type. -/
structure Store.ChainsEnd (s : Store) : Prop where
  acyclic : ∀ c, ¬ TransGen s.Refers c c
  reaches_underlying : ∀ c, ReflTransGen s.Refers c (s.underlying c)
  underlying_of_refers : ∀ c d, s.Refers c d → s.underlying c = s.underlying d
  underlying_free : ∀ c v, s.underlying c = .var v → s.target? v = none

/-- All that resolving `v` to `c` changes. -/
structure Store.Redirects (s : Store) (v : Nat) (c : Cell) (t : Store) : Prop where
  made_eq : t.made = s.made
  target?_eq : ∀ w, t.target? w = if w = v then some c else s.target? w
  changes_iff : ∀ d, t.underlying d ≠ s.underlying d ↔ s.underlying d = .var v
  underlying_eq : ∀ d, s.underlying d = .var v → t.underlying d = s.underlying c

theorem Store.redirects_of_resolve {s t : Store} {v : Nat} {c : Cell}
    (h : s.resolve v c = .ok t) : s.Redirects v c t where
  made_eq := by
    obtain ⟨_, _, rfl⟩ := Store.resolve_eq_ok_iff.1 h
    rfl
  target?_eq := Store.target?_resolve h
  changes_iff _ := Store.underlying_resolve_ne_iff h
  underlying_eq _ := Store.underlying_resolve_of_eq h

namespace Registry

theorem Sound.chainsEnd {r : Registry} (h : r.Sound) : r.store.ChainsEnd where
  acyclic := h.lawful.not_transGen_refers
  reaches_underlying := h.lawful.reaches_underlying
  underlying_of_refers _ _ := h.lawful.underlying_of_refers
  underlying_free _ _ := h.lawful.lookup_of_underlying

/-- **Chains of variables end, and refused requests change nothing.**  Whatever was asked of the
registry, following references from a type ends, at its underlying type.  Resolving a variable is
refused exactly if it is resolved already or the target comes down to it, and then the registry
stays as it was.  Otherwise it redirects the types that came down to the variable. -/
theorem chains_end (qs : List Request) :
    (run qs).store.ChainsEnd ∧
      ∀ i j v c, (run qs).types[i]? = some (.var v) → (run qs).types[j]? = some c →
        (∀ e, (run qs).store.resolve v c = .error e ↔
          (e = .resolvedTwice ∧ ((run qs).store.target? v).isSome = true) ∨
            (e = .resolvedToItself ∧ (run qs).store.target? v = none ∧
              (run qs).store.underlying c = .var v)) ∧
        (∀ e, (run qs).store.resolve v c = .error e → run (qs ++ [.resolve i j]) = run qs) ∧
        ∀ t, (run qs).store.resolve v c = .ok t →
          run (qs ++ [.resolve i j]) = ⟨t, (run qs).types⟩ ∧ (run qs).store.Redirects v c t := by
  refine ⟨(sound_run qs).chainsEnd, ?_⟩
  intro i j v c hv hc
  have hstep := step_resolve hv hc
  have hrun : run (qs ++ [.resolve i j]) = (run qs).step (.resolve i j) := run_append _ _
  refine ⟨fun e => Store.resolve_eq_error_iff, fun e he => ?_, fun t ht => ?_⟩
  · rw [hrun, hstep, he]
  · exact ⟨by rw [hrun, hstep, ht], Store.redirects_of_resolve ht⟩

/-- A cycle of three variables is not closed, one through an array is. -/
example :
    run [.var, .var, .var, .resolve 0 1, .resolve 1 2, .resolve 2 0] =
        run [.var, .var, .var, .resolve 0 1, .resolve 1 2] ∧
      (run [.var, .array 0, .resolve 0 1]).store.underlying (.var 0) = .array 1 (.var 0) :=
  ⟨rfl, rfl⟩

end Registry

end SmallMl
