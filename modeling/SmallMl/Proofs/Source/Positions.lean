import Mathlib.Data.List.Induction
import SmallMl.Proofs.Source.Decoding
import SmallMl.Source.Cursor

/-!
# A cursor as a position in a text

A cursor decodes bytes as it goes along, one character ahead of what it has passed.  It can be asked
for the character it stands on, for the one behind it, for its place and whether it is at the end,
and it can be moved on.  All its answers are those of a position in the decoded text: what counts
is how often it has been moved, and moving it at the end does nothing.

The view of a cursor determines its answers (`Cursor.current?_eq`, `Cursor.peek?_eq`,
`Cursor.atEnd_eq`), and moving it takes the first character from the view (`Cursor.view_advance`,
`Cursor.loc_advance`).  So a cursor that has passed `k` characters of a text (`Cursor.Passed`) has
the rest of the text in view; a call keeps this (`Cursor.Passed.ask_snd`), and so do any number of
calls (`Cursor.Passed.after`).
-/

namespace SmallMl

namespace Location

/-- The place in front of the character with the number `m`: its line is told by the newlines in
front of it, its column by the characters behind the last of them. -/
def inFrontOf (text : List Char) (m : Nat) : Location where
  line := 1 + (text.take m).count '\n'
  column := 1 + ((text.take m).reverse.takeWhile (· != '\n')).length
  offset := m

/-- **Moving over a text counts its newlines and the characters behind the last one.** -/
theorem start_after (cs : List Char) : start.after cs =
    ⟨1 + cs.count '\n', 1 + (cs.reverse.takeWhile (· != '\n')).length, cs.length⟩ := by
  induction cs using List.reverseRecOn with
  | nil => rfl
  | append_singleton cs c ih =>
    rw [after_append, ih, after_cons, after_nil, next]
    by_cases hc : c = '\n'
    · simp [hc, Int.add_assoc]
    · simp [hc, Int.add_comm]

theorem start_after_take {text : List Char} {m : Nat} (h : m ≤ text.length) :
    start.after (text.take m) = inFrontOf text m := by
  rw [start_after, List.length_take_of_le h, inFrontOf]

end Location

namespace Cursor

/-! ### Calls -/

inductive Call
  | current
  | peek
  | advance
  | place
  | atEnd
  deriving DecidableEq

inductive Answer
  | char (c? : Option Char)
  | moved
  | place (l : Location)
  | atEnd (b : Bool)
  deriving DecidableEq

def ask (s : Cursor) : Call → Answer × Cursor
  | .current => (.char s.current?, s)
  | .peek => (.char s.peek?, s)
  | .advance => (.moved, s.advance)
  | .place => (.place s.loc, s)
  | .atEnd => (.atEnd s.atEnd, s)

def after (s : Cursor) (calls : List Call) : Cursor := calls.foldl (fun s c => (s.ask c).2) s

def answers (s : Cursor) : List Call → List Answer
  | [] => []
  | c :: calls => (s.ask c).1 :: (s.ask c).2.answers calls

/-- The answer to a call at the position `m` of a text. -/
def Answer.ofPosition (text : List Char) (m : Nat) : Call → Answer
  | .current => .char text[m]?
  | .peek => .char text[m + 1]?
  | .advance => .moved
  | .place => .place (.inFrontOf text m)
  | .atEnd => .atEnd (m = text.length)

/-! ### The view -/

theorem current?_eq (s : Cursor) : s.current? = s.view.head? := by
  unfold view
  cases s.current? <;> rfl

theorem atEnd_eq (s : Cursor) : s.atEnd = s.view.isEmpty := by
  unfold atEnd view
  cases s.current? <;> rfl

/-- The next character is decoded in front of the bytes that are left, so it is the one that
decoding all of them gives first. -/
theorem peek?_eq (s : Cursor) : s.peek? = s.view.tail.head? := by
  unfold peek? view
  cases s.current? with
  | none => rfl
  | some c =>
    cases s.ahead with
    | nil => rw [Utf8.decode_nil]; rfl
    | cons a r => rw [Utf8.decode_cons]; rfl

theorem loc_onto (l : Location) (bytes : List UInt8) : (onto l bytes).loc = l := by
  cases bytes <;> rfl

theorem view_advance (s : Cursor) : s.advance.view = s.view.tail := by
  cases hc : s.current? with
  | none => simp [advance, view, hc]
  | some c =>
    have ha : s.advance = onto (s.loc.next c) s.ahead := by simp only [advance, hc]
    rw [ha, view_onto]
    simp [view, hc]

theorem loc_advance (s : Cursor) : s.advance.loc = s.loc.after (s.view.take 1) := by
  cases hc : s.current? with
  | none => simp [advance, view, hc]
  | some c =>
    have ha : s.advance = onto (s.loc.next c) s.ahead := by simp only [advance, hc]
    rw [ha, loc_onto]
    simp [view, hc]

/-! ### Positions -/

/-- The cursor has been moved `k` times in the text: it has the rest in view. -/
structure Passed (text : List Char) (k : Nat) (s : Cursor) : Prop where
  view : s.view = text.drop k
  loc : s.loc = Location.start.after (text.take k)

variable {text : List Char} {k : Nat} {s : Cursor}

theorem passed_ofBytes (bytes : List UInt8) : (ofBytes bytes).Passed (Utf8.decode bytes) 0 where
  view := view_onto .start bytes
  loc := loc_onto .start bytes

theorem Passed.advance (h : s.Passed text k) : s.advance.Passed text (k + 1) where
  view := by rw [view_advance, h.view, List.tail_drop]
  loc := by rw [loc_advance, h.view, h.loc, ← Location.after_append, List.take_add]

/-- **A call keeps the position**, unless it moves the cursor. -/
theorem Passed.ask_snd (h : s.Passed text k) (c : Call) :
    (s.ask c).2.Passed text (k + [c].count .advance) := by
  cases c with
  | advance => exact h.advance
  | current | peek | place | atEnd => exact h

theorem Passed.after (h : s.Passed text k) (calls : List Call) :
    (s.after calls).Passed text (k + calls.count .advance) := by
  induction calls generalizing s k with
  | nil => exact h
  | cons c calls ih =>
    have hk : k + (c :: calls).count .advance = k + [c].count .advance + calls.count .advance := by
      rw [Nat.add_assoc, ← List.count_append, List.singleton_append]
    rw [hk]
    exact ih (h.ask_snd c)

/-- **A call is answered as at the position.**  Behind the end there is no position. -/
theorem Passed.ask_fst (h : s.Passed text k) (c : Call) :
    (s.ask c).1 = .ofPosition text (min k text.length) c := by
  have hdrop : text.drop k = text.drop (min k text.length) := by
    rcases Nat.le_total k text.length with hk | hk
    · rw [Nat.min_eq_left hk]
    · rw [Nat.min_eq_right hk, List.drop_length, List.drop_of_length_le hk]
  have htake : text.take k = text.take (min k text.length) := by
    rcases Nat.le_total k text.length with hk | hk
    · rw [Nat.min_eq_left hk]
    · rw [Nat.min_eq_right hk, List.take_length, List.take_of_length_le hk]
  have hv := h.view.trans hdrop
  have hm := Nat.min_le_right k text.length
  cases c with
  | current => exact congrArg Answer.char (by rw [current?_eq, hv, List.head?_drop])
  | peek => exact congrArg Answer.char (by rw [peek?_eq, hv, List.tail_drop, List.head?_drop])
  | advance => rfl
  | place => exact congrArg Answer.place (by rw [h.loc, htake, Location.start_after_take hm])
  | atEnd =>
    refine congrArg Answer.atEnd ?_
    rw [atEnd_eq, hv, Bool.eq_iff_iff, List.isEmpty_iff, List.drop_eq_nil_iff, decide_eq_true_iff]
    omega

/-! ### Runs -/

theorem getElem?_answers (s : Cursor) (before : List Call) (c : Call) (behind : List Call) :
    (s.answers (before ++ c :: behind))[before.length]? = some ((s.after before).ask c).1 := by
  induction before generalizing s with
  | nil => rfl
  | cons b before ih => exact ih (s.ask b).2

/-- Calls that do not move the cursor can be left out. -/
theorem after_eq (s : Cursor) (calls : List Call) :
    s.after calls = s.after (List.replicate (calls.count .advance) .advance) := by
  induction calls generalizing s with
  | nil => rfl
  | cons c calls ih =>
    cases c with
    | advance =>
      rw [List.count_cons_self, List.replicate_succ]
      exact ih s.advance
    | current | peek | place | atEnd => exact ih s

/-- **A cursor over bytes is a position in the text that they stand for.**  There is one text that
the bytes stand for.  Whatever calls are made, a call with `k` moves before it is answered as at the
position `k` of the text, or at the end of the text if that is shorter.  Only the moves change the
cursor. -/
theorem answers_as_position (bytes : List UInt8) :
    ∃ text, (∀ cs, Utf8.Decodes bytes cs ↔ cs = text) ∧
      (∀ before c behind, ((ofBytes bytes).answers (before ++ c :: behind))[before.length]?
        = some (.ofPosition text (min (before.count .advance) text.length) c)) ∧
      ∀ calls, (ofBytes bytes).after calls
        = (ofBytes bytes).after (List.replicate (calls.count .advance) .advance) := by
  refine ⟨Utf8.decode bytes, fun cs => Utf8.decodes_iff, fun before c behind => ?_, after_eq _⟩
  have h := (passed_ofBytes bytes).after before
  rw [Nat.zero_add] at h
  rw [getElem?_answers, h.ask_fst]

end Cursor

end SmallMl
