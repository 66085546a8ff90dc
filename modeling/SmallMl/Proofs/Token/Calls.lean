import SmallMl.Proofs.Token.Listing

/-!
# Calls in any order

A stream can be asked by `read` and by `next` in any order.  All answers come from one sequence: the
results that calls of `read` alone give, with the end token again and again at its end
(`Stream.item`).  A call of `read` takes the item behind the last one that was passed, a call of
`next` the first one from there on that is no comment (`Answers`).

* `Stream.exists_next_eq_item`: a call of `next` is as many calls of `read` as it passes items.
* `Stream.answers_calls`: any calls give the answers that the items prescribe, and leave the stream
  where the calls of `read` for the passed items leave it.
* `Stream.warnings_skip`: the warnings are those of the passed items.
-/

namespace SmallMl

namespace Stream

/-! ### The items of a stream -/

/-- The result of the call of `read` behind `n` others. -/
def item (s : Stream) (n : Nat) : Except Diagnostic Token := (s.skip n).read.1

def raised (s : Stream) : List Diagnostic :=
  match s.body with
  | [] => []
  | c :: r =>
    if (Lexeme.read c r).unclosed then [unclosedComment s.settings s.here] else []

theorem item_add (s : Stream) (m n : Nat) : (s.skip m).item n = s.item (m + n) := by
  rw [item, item, skip_add]

theorem warnings_read (s : Stream) : s.read.2.warnings = s.warnings ++ s.raised := by
  rcases s.read_cases with ⟨hb, hr⟩ | ⟨c, r, hb, hr⟩
  · simp [hr, raised, hb]
  · simp only [hr, raised, hb, behind]
    split
    · rfl
    · exact (List.append_nil _).symm

/-- **The warnings are those of the passed items.** -/
theorem warnings_skip (s : Stream) (n : Nat) :
    (s.skip n).warnings = s.warnings ++ (List.range n).flatMap fun i => (s.skip i).raised := by
  induction n with
  | zero => exact (List.append_nil _).symm
  | succ n ih =>
    rw [skip, warnings_read, ih, List.range_succ, List.flatMap_append, List.append_assoc]
    simp

/-! ### Calls -/

inductive Call
  /-- Comments included. -/
  | read
  /-- Comments passed over. -/
  | next
  deriving DecidableEq

def ask (s : Stream) : Call → Except Diagnostic Token × Stream
  | .read => s.read
  | .next => s.next

def calls (s : Stream) : List Call → List (Except Diagnostic Token) × Stream
  | [] => ([], s)
  | c :: cs => ((s.ask c).1 :: ((s.ask c).2.calls cs).1, ((s.ask c).2.calls cs).2)

/-- With `n` items passed, the calls give these answers, and then `m` items have been passed.  A
call of `read` takes the next item, a call of `next` the next one that is no comment. -/
inductive Answers (item : Nat → Except Diagnostic Token) :
    Nat → List Call → List (Except Diagnostic Token) → Nat → Prop
  | nil (n : Nat) : Answers item n [] [] n
  | read {n m : Nat} {cs : List Call} {rs : List (Except Diagnostic Token)} :
      Answers item (n + 1) cs rs m → Answers item n (.read :: cs) (item n :: rs) m
  | next {n i m : Nat} {cs : List Call} {rs : List (Except Diagnostic Token)} : n ≤ i →
      (∀ j, n ≤ j → j < i → isComment (item j) = true) → isComment (item i) = false →
      Answers item (i + 1) cs rs m → Answers item n (.next :: cs) (item i :: rs) m

theorem item_succ (s : Stream) (n : Nat) : s.item (n + 1) = s.read.2.item n := by
  rw [item, item, skip_succ]

/-- **A call of `next` is as many calls of `read` as it passes items**: the comments, and the first
item that is none. -/
theorem exists_next_eq_item (s : Stream) : ∃ i, s.next = (s.item i, s.skip (i + 1)) ∧
    isComment (s.item i) = false ∧ ∀ j < i, isComment (s.item j) = true := by
  fun_induction next s with
  | case1 s t ht hc ih =>
    -- the comment is the first item, and the others are those behind it
    obtain ⟨i, hn, hi, hj⟩ := ih
    refine ⟨i + 1, by rw [hn, item_succ, skip_succ s (i + 1)], by rwa [item_succ], ?_⟩
    intro j hji
    cases j with
    | zero =>
      rw [item, skip, ht]
      exact hc
    | succ j =>
      rw [item_succ]
      exact hj j (by omega)
  | case2 s t ht hc =>
    refine ⟨0, by rw [← ht]; rfl, ?_, fun j hj => absurd hj (Nat.not_lt_zero j)⟩
    rw [item, skip, ht]
    exact Bool.eq_false_iff.2 hc
  | case3 s d hd =>
    refine ⟨0, by rw [← hd]; rfl, ?_, fun j hj => absurd hj (Nat.not_lt_zero j)⟩
    rw [item, skip, hd]
    rfl

/-- **Any calls give the answers that the items prescribe.**  They leave the stream where as many
calls of `read` as items were passed leave it. -/
theorem answers_calls (s : Stream) (cs : List Call) : ∀ n, ∃ m,
    Answers s.item n cs ((s.skip n).calls cs).1 m ∧ ((s.skip n).calls cs).2 = s.skip m := by
  induction cs with
  | nil => exact fun n => ⟨n, .nil n, rfl⟩
  | cons c cs ih =>
    intro n
    cases c with
    | read =>
      obtain ⟨m, ha, hs⟩ := ih (n + 1)
      exact ⟨m, .read ha, hs⟩
    | next =>
      obtain ⟨i, hn, hi, hj⟩ := (s.skip n).exists_next_eq_item
      obtain ⟨m, ha, hs⟩ := ih (n + i + 1)
      have hask : (s.skip n).ask .next = (s.item (n + i), s.skip (n + i + 1)) := by
        rw [ask, hn, item_add, ← skip_add, Nat.add_assoc]
      refine ⟨m, ?_, by rw [calls, hask]; exact hs⟩
      rw [calls, hask]
      refine .next (Nat.le_add_right n i) ?_ (by rwa [← item_add]) ha
      intro j hnj hji
      obtain ⟨k, rfl⟩ := Nat.exists_eq_add_of_le hnj
      rw [← item_add]
      exact hj k (by omega)

end Stream

end SmallMl
