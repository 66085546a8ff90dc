import SmallMl.Grammar.Parse

/-!
# Runs of the reader

`Parse.run` takes tokens from a stream and makes a step with each of them.  Here the two halves are
taken apart: `Stream.Emits` says which tokens a stream gives, `State.run` makes the steps.  A run
uses up some tokens and then halts, for one of the three reasons of `Parse.Halts`: a lexeme that is
no token, a token that cannot be used, or the end.

* `Parse.run_halts`: every run has this form.
* `Parse.run_eq`: the tokens and the halt determine what comes of the run.
* `Parse.run_of_within`: a run on a given text is found by evaluation.

So what is true of a run is an induction over `State.run`, and what is true of the tokens is an
induction over `Stream.Emits`.
-/

namespace SmallMl

namespace Grammar.State

def run (s : State) : List Token → Outcome
  | [] => .ok s
  | t :: ts =>
    match s.step t with
    | .ok s' => s'.run ts
    | .error i => .error i

@[simp] theorem run_nil (s : State) : s.run [] = .ok s := rfl

theorem run_cons {s s' : State} {t : Token} (h : s.step t = .ok s') (ts : List Token) :
    s.run (t :: ts) = s'.run ts := by
  rw [run, h]

theorem run_cons_inv {s s'' : State} {t : Token} {ts : List Token}
    (h : s.run (t :: ts) = .ok s'') : ∃ s', s.step t = .ok s' ∧ s'.run ts = .ok s'' := by
  rw [run] at h
  cases hs : s.step t with
  | ok s' =>
    rw [hs] at h
    exact ⟨s', rfl, h⟩
  | error i =>
    rw [hs] at h
    cases h

theorem run_append : ∀ {ts us : List Token} {s s' : State}, s.run ts = .ok s' →
    s.run (ts ++ us) = s'.run us := by
  intro ts
  induction ts with
  | nil =>
    intro us s s' h
    cases h
    rfl
  | cons t ts ih =>
    intro us s s' h
    obtain ⟨s₁, h₁, h₂⟩ := run_cons_inv h
    rw [List.cons_append, run_cons h₁, ih h₂]

/-- **What every step keeps, a run keeps**; `Inv` may look at the tokens used so far. -/
theorem run_invariant {Inv : List Token → State → Prop}
    (hstep : ∀ us s t s', t.isEof = false → Inv us s → s.step t = .ok s' → Inv (us ++ [t]) s') :
    ∀ {ts us : List Token} {s s' : State}, (∀ t ∈ ts, t.isEof = false) → Inv us s →
      s.run ts = .ok s' → Inv (us ++ ts) s' := by
  intro ts
  induction ts with
  | nil =>
    intro us s s' _ hi h
    cases h
    rwa [List.append_nil]
  | cons t ts ih =>
    intro us s s' ht hi h
    obtain ⟨s₁, h₁, h₂⟩ := run_cons_inv h
    have hi₁ := hstep us s t s₁ (ht t (by simp)) hi h₁
    have := ih (fun u hu => ht u (by simp [hu])) hi₁ h₂
    rwa [List.append_assoc] at this

end Grammar.State

open Grammar (State)

namespace Stream

/-- The next tokens of the first stream are `ts`, none of them the end token, and the second stream
is behind them. -/
inductive Emits : Stream → List Token → Stream → Prop
  | refl (src : Stream) : Emits src [] src
  | head {src src' : Stream} {t : Token} {ts : List Token} : src.next.1 = .ok t →
      t.isEof = false → Emits src.next.2 ts src' → Emits src (t :: ts) src'

namespace Emits

variable {src src' src'' : Stream} {ts us : List Token}

theorem append (h : Emits src ts src') (g : Emits src' us src'') : Emits src (ts ++ us) src'' := by
  induction h with
  | refl => exact g
  | head ht he _ ih => exact .head ht he (ih g)

theorem isEof_eq_false (h : Emits src ts src') : ∀ t ∈ ts, t.isEof = false := by
  induction h with
  | refl => simp
  | head ht he _ ih =>
    intro u hu
    rcases List.mem_cons.1 hu with rfl | hu
    · exact he
    · exact ih u hu

end Emits

end Stream

namespace Parse

/-- What the reader in the state `s` answers when it goes no further than the next result of
`src`. -/
inductive Halts (s : State) (src : Stream) : Parse → Prop
  | fault {d : Diagnostic} : src.next.1 = .error d → Halts s src ⟨.error d, src.next.2⟩
  | issue {t : Token} {i : Issue} : src.next.1 = .ok t → s.step t = .error i →
      Halts s src ⟨.error (i.toDiagnostic src.settings), src.next.2⟩
  | finish {t : Token} {s' : State} : src.next.1 = .ok t → t.isEof = true → s.step t = .ok s' →
      Halts s src ⟨.ok (s'.program t), src.next.2⟩

theorem run_of_halts {s : State} {src : Stream} {p : Parse} (h : Halts s src p) :
    run s src = p := by
  rw [run]
  cases h with
  | fault hn =>
    split
    · next d h' => rw [hn] at h'; cases h'; rfl
    · next t h' => rw [hn] at h'; cases h'
  | issue hn hs =>
    split
    · next d h' => rw [hn] at h'; cases h'
    · next t h' =>
      rw [hn] at h'
      cases h'
      rw [hs]
  | finish hn ht hs =>
    split
    · next d h' => rw [hn] at h'; cases h'
    · next t h' =>
      rw [hn] at h'
      cases h'
      rw [hs]
      exact dif_pos ht

theorem run_of_token {s s' : State} {src : Stream} {t : Token} (hn : src.next.1 = .ok t)
    (ht : t.isEof = false) (hs : s.step t = .ok s') : run s src = run s' src.next.2 := by
  rw [run]
  split
  · next d h' => rw [hn] at h'; cases h'
  · next t' h' =>
    rw [hn] at h'
    cases h'
    rw [hs]
    exact dif_neg (by simp [ht])

theorem run_emits {src src' : Stream} {ts : List Token} (h : src.Emits ts src') :
    ∀ {s s' : State}, s.run ts = .ok s' → run s src = run s' src' := by
  induction h with
  | refl src =>
    intro s s' hs
    cases hs
    rfl
  | head hn ht _ ih =>
    intro s s' hs
    obtain ⟨s₁, h₁, h₂⟩ := State.run_cons_inv hs
    rw [run_of_token hn ht h₁, ih h₂]

/-- The tokens that are used and the halt determine what comes of a run. -/
theorem run_eq {src src' : Stream} {ts : List Token} {s s' : State} {p : Parse}
    (h : src.Emits ts src') (hs : s.run ts = .ok s') (hp : Halts s' src' p) : run s src = p := by
  rw [run_emits h hs, run_of_halts hp]

/-- **Every run uses up some tokens and halts.** -/
theorem run_halts (s : State) (src : Stream) :
    ∃ ts src' s', src.Emits ts src' ∧ s.run ts = .ok s' ∧ Halts s' src' (run s src) := by
  fun_induction run s src with
  | case1 s src d hn => exact ⟨[], src, s, .refl src, rfl, .fault hn⟩
  | case2 s src t hn i hs => exact ⟨[], src, s, .refl src, rfl, .issue hn hs⟩
  | case3 s src t hn s' hs ht => exact ⟨[], src, s, .refl src, rfl, .finish hn ht hs⟩
  | case4 s src t hn s' hs ht ih =>
    obtain ⟨ts, src', s'', he, hr, hp⟩ := ih
    exact ⟨t :: ts, src', s'', .head hn (by simpa using ht) he, by rw [State.run_cons hs, hr], hp⟩

end Parse

/-- The tokens of the stream, up to the end, are `ts`, and every lexeme of it is a token. -/
def Stream.Gives (src : Stream) (ts : List Token) : Prop :=
  ∃ src' e, src.Emits ts src' ∧ src'.next.1 = .ok e ∧ e.isEof = true

/-- A text all of whose tokens can be used. -/
theorem Program.result_parse_of_gives {settings : Settings} {text : List Char} {ts : List Token}
    {s s' : State} (h : (Stream.ofText settings text).Gives ts) (hs : State.initial.run ts = .ok s)
    (he : ∀ e, e.isEof = true → s.step e = .ok s') :
    ∃ e, (parse settings text).result = .ok (s'.program e) := by
  obtain ⟨src', e, hem, hn, hee⟩ := h
  refine ⟨e, ?_⟩
  rw [parse, Parse.run_eq hem hs (.finish hn hee (he e hee))]

/-! ### Evaluation

`next` and `run` recurse on the length of the text, which does not evaluate.  With a bound on the
number of calls they do. -/

/-- The next token that is no comment, if `n` calls of `read` find it. -/
def Stream.nextWithin : Nat → Stream → Option (Except Diagnostic Token × Stream)
  | 0, _ => none
  | n + 1, s =>
    match s.read.1 with
    | .ok t => if t.isComment then nextWithin n s.read.2 else some (.ok t, s.read.2)
    | .error d => some (.error d, s.read.2)

theorem Stream.next_of_within : ∀ {n : Nat} {s : Stream} {r : Except Diagnostic Token × Stream},
    nextWithin n s = some r → s.next = r := by
  intro n
  induction n with
  | zero => intro s r h; cases h
  | succ n ih =>
    intro s r h
    rw [nextWithin] at h
    rw [next]
    split at h
    · next t ht =>
      split at h
      · next hc =>
        have hn := ih h
        split
        · next t' ht' =>
          rw [ht] at ht'
          cases ht'
          rw [dif_pos hc, hn]
        · next d hd => rw [ht] at hd; cases hd
      · next hc =>
        cases h
        split
        · next t' ht' =>
          rw [ht] at ht'
          cases ht'
          rw [dif_neg hc]
        · next d hd => rw [ht] at hd; cases hd
    · next d hd =>
      cases h
      split
      · next t' ht' => rw [hd] at ht'; cases ht'
      · next d' hd' => rw [hd] at hd'; cases hd'; rfl

/-- What comes of a run that takes fewer than `n` results, each found by `n` calls. -/
def Parse.runWithin : Nat → State → Stream → Option Parse
  | 0, _, _ => none
  | n + 1, s, src =>
    match src.nextWithin (n + 1) with
    | none => none
    | some (.error d, src') => some ⟨.error d, src'⟩
    | some (.ok t, src') =>
      match s.step t with
      | .error i => some ⟨.error (i.toDiagnostic src.settings), src'⟩
      | .ok s' => if t.isEof then some ⟨.ok (s'.program t), src'⟩ else runWithin n s' src'

theorem Parse.run_of_within : ∀ {n : Nat} {s : State} {src : Stream} {p : Parse},
    runWithin n s src = some p → run s src = p := by
  intro n
  induction n with
  | zero => intro s src p h; cases h
  | succ n ih =>
    intro s src p h
    rw [runWithin] at h
    split at h
    · cases h
    · next d src' hn =>
      cases h
      have hx := Stream.next_of_within hn
      have hp : Halts s src ⟨.error d, src.next.2⟩ := .fault (by rw [hx])
      rw [run_of_halts hp, hx]
    · next t src' hn =>
      have hx := Stream.next_of_within hn
      split at h
      · next i hi =>
        cases h
        have hp : Halts s src ⟨.error (i.toDiagnostic src.settings), src.next.2⟩ :=
          .issue (by rw [hx]) hi
        rw [run_of_halts hp, hx]
      · next s' hs' =>
        split at h
        · next ht =>
          cases h
          have hp : Halts s src ⟨.ok (s'.program t), src.next.2⟩ := .finish (by rw [hx]) ht hs'
          rw [run_of_halts hp, hx]
        · next ht =>
          have ht' : t.isEof = false := by simpa using ht
          rw [run_of_token (by rw [hx]) ht' hs', hx]
          exact ih h

theorem Program.result_parse_of_within {n : Nat} {settings : Settings} {text : List Char}
    {r : Except Diagnostic Program}
    (h : (Parse.runWithin n .initial (.ofText settings text)).map Parse.result = some r) :
    (parse settings text).result = r := by
  obtain ⟨p, hp, rfl⟩ := Option.map_eq_some_iff.1 h
  rw [parse, Parse.run_of_within hp]

/-- The tokens of a stream up to the end, if there are fewer than `n`, each found by `n` calls. -/
def Stream.givesWithin : Nat → Stream → Option (List Token)
  | 0, _ => none
  | n + 1, src =>
    match src.nextWithin (n + 1) with
    | some (.ok t, src') => if t.isEof then some [] else (givesWithin n src').map (t :: ·)
    | _ => none

theorem Stream.gives_of_within : ∀ {n : Nat} {src : Stream} {ts : List Token},
    src.givesWithin n = some ts → src.Gives ts := by
  intro n
  induction n with
  | zero => intro src ts h; cases h
  | succ n ih =>
    intro src ts h
    rw [givesWithin] at h
    split at h
    · next t src' hn =>
      have hx := next_of_within hn
      split at h
      · next ht =>
        cases h
        exact ⟨src, t, .refl src, by rw [hx], ht⟩
      · next ht =>
        obtain ⟨us, hu, rfl⟩ := Option.map_eq_some_iff.1 h
        obtain ⟨src'', e, hem, hne, he⟩ := ih hu
        exact ⟨src'', e, .head (by rw [hx]) (by simpa using ht) (by rw [hx]; exact hem), hne, he⟩
    · cases h

end SmallMl
