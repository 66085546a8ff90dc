import SmallMl.Proofs.Token.Listing

/-!
# Where a comment ends

`Lexeme.splitComment` counts depth, one character ahead.  The text of a comment can also be read as
`Mark`s: from left to right, `(*` and `*)` are one mark each, marks do not overlap, and every other
character stands for itself.  A comment ends at the first `*)` that closes as many comments as have
been opened, and if there is no such mark it ends with the text, which is worth a warning.

Main statement: `Stream.comment_ends_at_match`, for every stream that is reached by calls of `read`
and `next`.  There is at most one warning, since behind a comment that is not closed there is no
text, and the listener has heard what has been recorded (`Stream.Reached.nothing_left`,
`Stream.Reached.heard_eq`).
-/

namespace SmallMl

/-- What the inside of a comment is made of. -/
inductive Mark
  | opening
  | closing
  | char (c : Char)
  deriving DecidableEq

namespace Mark

def text : Mark → List Char
  | opening => ['(', '*']
  | closing => ['*', ')']
  | char c => [c]

def split : List Char → List Mark
  | [] => []
  | [c] => [.char c]
  | c :: d :: r =>
    if c = '(' && d = '*' then .opening :: split r
    else if c = '*' && d = ')' then .closing :: split r
    else .char c :: split (d :: r)
termination_by structural cs => cs

theorem flatMap_text_split (cs : List Char) : (split cs).flatMap text = cs := by
  fun_induction split cs with
  | case1 => rfl
  | case2 => rfl
  | case3 c d r h ih =>
    simp only [Bool.and_eq_true, decide_eq_true_eq] at h
    simp [ih, text, h.1, h.2]
  | case4 c d r h h' ih =>
    simp only [Bool.and_eq_true, decide_eq_true_eq] at h'
    simp [ih, text, h'.1, h'.2]
  | case5 c d r h h' ih => simp [ih, text]

/-- With `depth` comments open in front of the marks, mark number `n` closes a comment, and up to
it as many have been closed as have been opened. -/
def Balances (depth : Nat) (ms : List Mark) (n : Nat) : Prop :=
  ms[n]? = some .closing ∧
    (ms.take (n + 1)).count .closing = (ms.take (n + 1)).count .opening + depth

/-- Mark number `n` is the first one that balances. -/
def Matches (depth : Nat) (ms : List Mark) (n : Nat) : Prop :=
  Balances depth ms n ∧ ∀ i < n, ¬ Balances depth ms i

instance (depth : Nat) (ms : List Mark) (n : Nat) : Decidable (Balances depth ms n) :=
  inferInstanceAs (Decidable (_ ∧ _))

instance (depth : Nat) (ms : List Mark) (n : Nat) : Decidable (Matches depth ms n) :=
  inferInstanceAs (Decidable (_ ∧ _))

theorem Matches.unique {depth : Nat} {ms : List Mark} {m n : Nat} (hm : Matches depth ms m)
    (hn : Matches depth ms n) : m = n := by
  rcases Nat.lt_trichotomy m n with h | h | h
  · exact absurd hm.1 (hn.2 m h)
  · exact h
  · exact absurd hn.1 (hm.2 n h)

theorem not_balances_nil (depth n : Nat) : ¬ Balances depth [] n := by
  rintro ⟨h, _⟩
  simp at h

/-! ### One mark more -/

variable {depth n : Nat} {ms : List Mark}

theorem balances_closing_zero : Balances (depth + 1) (.closing :: ms) 0 ↔ depth = 0 := by
  simp [Balances]

theorem balances_closing_succ :
    Balances (depth + 1) (.closing :: ms) (n + 1) ↔ Balances depth ms n := by
  simp [Balances]
  omega

theorem balances_opening_succ :
    Balances depth (.opening :: ms) (n + 1) ↔ Balances (depth + 1) ms n := by
  simp [Balances]
  omega

theorem balances_char_succ (c : Char) :
    Balances depth (.char c :: ms) (n + 1) ↔ Balances depth ms n := by
  simp [Balances]

theorem not_balances_opening_zero : ¬ Balances depth (.opening :: ms) 0 := by
  simp [Balances]

theorem not_balances_char_zero (c : Char) : ¬ Balances depth (.char c :: ms) 0 := by
  simp [Balances]

/-- How `splitComment` takes a text apart: at the matching mark, or not at all. -/
inductive Splits (depth : Nat) (ms : List Mark) : List Char × List Char × Bool → Prop
  | closed (n : Nat) (h : Matches depth ms n) :
      Splits depth ms
        ((ms.take (n + 1)).flatMap text, (ms.drop (n + 1)).flatMap text, false)
  | unclosed (h : ∀ n, ¬ Balances depth ms n) : Splits depth ms (ms.flatMap text, [], true)

theorem Splits.cons {depth' : Nat} {m : Mark} {x : List Char × List Char × Bool}
    (hz : ¬ Balances depth (m :: ms) 0)
    (hs : ∀ n, Balances depth (m :: ms) (n + 1) ↔ Balances depth' ms n)
    (h : Splits depth' ms x) : Splits depth (m :: ms) (m.text ++ x.1, x.2) := by
  cases h with
  | closed n h =>
    refine closed (n + 1) ⟨(hs n).2 h.1, fun i hi => ?_⟩
    cases i with
    | zero => exact hz
    | succ i => exact fun hb => h.2 i (Nat.lt_of_succ_lt_succ hi) ((hs i).1 hb)
  | unclosed h =>
    refine unclosed fun i => ?_
    cases i with
    | zero => exact hz
    | succ i => exact fun hb => h i ((hs i).1 hb)

end Mark

open Mark in
/-- **The depth counter finds the matching mark.** -/
theorem Lexeme.splits_splitComment (depth : Nat) (cs : List Char) :
    Splits (depth + 1) (split cs) (splitComment (depth + 1) cs) := by
  generalize hd : depth + 1 = d
  fun_induction splitComment d cs generalizing depth with
  | case1 => omega
  | case2 => exact .unclosed (not_balances_nil _)
  | case3 d c =>
    refine .unclosed fun n => ?_
    cases n with
    | zero => exact not_balances_char_zero c
    | succ n => exact fun h => not_balances_nil _ n ((balances_char_succ c).1 h)
  | case4 d c e r hc s ih =>
    simp only [Bool.and_eq_true, decide_eq_true_eq] at hc
    obtain ⟨rfl, rfl⟩ := hc
    have hs : split ('*' :: ')' :: r) = .closing :: split r := by simp [split]
    rw [hs]
    cases d with
    | zero =>
      -- The last open comment is closed here.
      have h0 : Matches 1 (.closing :: split r) 0 :=
        ⟨balances_closing_zero.2 rfl, fun i hi => absurd hi (Nat.not_lt_zero i)⟩
      have h := Splits.closed 0 h0
      simpa [s, splitComment, Mark.text, flatMap_text_split] using h
    | succ d =>
      exact Splits.cons (m := .closing) (mt balances_closing_zero.1 (Nat.succ_ne_zero d))
        (fun _ => balances_closing_succ) (ih d rfl)
  | case5 d c e r hc hc' s ih =>
    simp only [Bool.and_eq_true, decide_eq_true_eq] at hc'
    obtain ⟨rfl, rfl⟩ := hc'
    have hs : split ('(' :: '*' :: r) = .opening :: split r := by simp [split]
    rw [hs]
    exact Splits.cons (m := .opening) not_balances_opening_zero
      (fun _ => balances_opening_succ) (ih (d + 1) rfl)
  | case6 d c e r hc hc' s ih =>
    have hs : split (c :: e :: r) = .char c :: split (e :: r) := by
      rw [split, if_neg hc', if_neg hc]
    rw [hs]
    exact Splits.cons (m := .char c) (not_balances_char_zero c) (fun _ => balances_char_succ c)
      (ih d rfl)

namespace Stream

/-! ### Reached streams -/

/-- The stream in front of a text after any number of calls. -/
inductive Reached (settings : Settings) (text : List Char) : Stream → Prop
  | start : Reached settings text (ofText settings text)
  | read {s : Stream} (h : Reached settings text s) : Reached settings text s.read.2
  | next {s : Stream} (h : Reached settings text s) : Reached settings text s.next.2

variable {settings : Settings} {text : List Char} {s : Stream}

/-- What every call of `read` keeps, every call keeps. -/
theorem Reached.induct {motive : Stream → Prop} (h : Reached settings text s)
    (start : motive (ofText settings text)) (read : ∀ s, motive s → motive s.read.2) :
    motive s := by
  induction h with
  | start => exact start
  | read _ ih => exact read _ ih
  | @next s h ih =>
    clear h
    fun_induction Stream.next s with
    | case1 s t ht hc ih' => exact ih' (read s ih)
    | case2 s t ht hc => exact read s ih
    | case3 s d hd => exact read s ih

theorem Reached.settings_eq (h : Reached settings text s) : s.settings = settings :=
  h.induct (motive := fun s => s.settings = settings) rfl fun s hs => s.settings_read.trans hs

/-- Behind a comment that is not closed there is no text. -/
theorem Reached.nothing_left (h : Reached settings text s) : s.warnings ≠ [] → s.rest = [] := by
  refine h.induct (motive := fun s => s.warnings ≠ [] → s.rest = []) (fun hw => absurd rfl hw) ?_
  intro s ih hw
  rcases s.read_cases with ⟨_, hr⟩ | ⟨c, r, hb, hr⟩
  · rw [hr]
  · rw [hr] at hw ⊢
    rw [rest_behind]
    cases hu : (Lexeme.read c r).unclosed with
    | true => exact (Lexeme.found_rest_of_unclosed hu).2
    | false =>
      simp only [behind, hu] at hw
      rw [body, ih hw] at hb
      cases hb

/-- While there is text, there is no warning. -/
theorem Reached.warnings_eq_nil (h : Reached settings text s) (hb : s.body ≠ []) :
    s.warnings = [] := by
  by_contra hw
  rw [body, h.nothing_left hw] at hb
  exact hb rfl

theorem Reached.length_warnings_le (h : Reached settings text s) : s.warnings.length ≤ 1 := by
  suffices h' : Reached settings text s ∧ s.warnings.length ≤ 1 from h'.2
  refine h.induct (motive := fun s => Reached settings text s ∧ s.warnings.length ≤ 1)
    ⟨.start, Nat.zero_le 1⟩ ?_
  rintro s ⟨hs, ih⟩
  refine ⟨hs.read, ?_⟩
  rcases s.read_cases with ⟨_, hr⟩ | ⟨c, r, hb, hr⟩
  · rw [hr]
    exact ih
  · have hw := hs.warnings_eq_nil (by simp [hb])
    rw [hr, behind]
    split <;> simp [warn, hw]

/-- **The listener has heard what has been recorded**, in the same order. -/
theorem Reached.heard_eq (h : Reached settings text s) :
    s.heard = if settings.listening then s.warnings else [] := by
  suffices h' : Reached settings text s ∧
      s.heard = if settings.listening then s.warnings else [] from h'.2
  refine h.induct (motive := fun s => Reached settings text s ∧
    s.heard = if settings.listening then s.warnings else []) ⟨.start, by simp [ofText]⟩ ?_
  rintro s ⟨hs, ih⟩
  refine ⟨hs.read, ?_⟩
  rcases s.read_cases with ⟨_, hr⟩ | ⟨c, r, _, hr⟩
  · rw [hr]
    exact ih
  · rw [hr, behind]
    split
    · simp only [warn, hs.settings_eq, ih]
      split <;> rfl
    · exact ih

/-! ### The comment at the front -/

def past (s : Stream) (lit rest : List Char) : Stream :=
  { s with rest := rest, loc := s.here.after lit }

def comment (s : Stream) (lit : List Char) : Except Diagnostic Token :=
  .ok ⟨.comment, ⟨s.here, s.here.after lit⟩, lit⟩

/-- What `read` gives at a comment that `splitComment` takes apart into `x`. -/
theorem read_comment {r : List Char} (h : s.body = '(' :: '*' :: r)
    {x : List Char × List Char × Bool} (hx : Lexeme.splitComment 1 r = x) :
    s.read = (s.comment ('(' :: '*' :: x.1),
      s.behind ⟨'(' :: '*' :: x.1, x.2.1, .ok .comment, x.2.2⟩) := by
  rw [read, h, ← hx]
  rfl

/-- **A comment ends at the matching mark**, after any number of calls: right behind the first `*)`
up to which as many comments are closed as are opened, and then no warning is recorded; if there is
no such mark, it goes on to the end of the text, and the only warning there is is recorded, at the
start of the comment.  At all times there is at most one warning, and the listener has heard
exactly the recorded ones. -/
theorem comment_ends_at_match (h : Reached settings text s) :
    s.warnings.length ≤ 1 ∧
    s.heard = (if settings.listening then s.warnings else []) ∧
    ∀ r, s.body = '(' :: '*' :: r →
      (∀ n, Mark.Matches 1 (Mark.split r) n →
        ∃ lit rest, lit = '(' :: '*' :: ((Mark.split r).take (n + 1)).flatMap Mark.text ∧
          lit ++ rest = s.body ∧ s.read = (s.comment lit, s.past lit rest) ∧
          s.next = (s.past lit rest).next) ∧
      ((∀ n, ¬ Mark.Matches 1 (Mark.split r) n) →
        s.warnings = [] ∧
        s.read = (s.comment s.body, (s.past s.body []).warn (unclosedComment settings s.here)) ∧
        s.next.2.warnings = [unclosedComment settings s.here]) := by
  refine ⟨h.length_warnings_le, h.heard_eq, fun r hb => ?_⟩
  have hs := Lexeme.splits_splitComment 0 r
  generalize hx : Lexeme.splitComment 1 r = x at hs
  have hr := read_comment hb hx
  have hn := next_of_comment (s := s) (by rw [hr]; rfl) rfl
  rw [hr] at hn
  cases hs with
  | closed m hm =>
    refine ⟨fun n hmn => ?_, fun hnone => absurd hm (hnone m)⟩
    obtain rfl := hm.unique hmn
    refine ⟨_, _, rfl, ?_, hr, hn⟩
    rw [hb, List.cons_append, List.cons_append, ← List.flatMap_append, List.take_append_drop,
      Mark.flatMap_text_split]
  | unclosed hnone =>
    refine ⟨fun n hm => absurd hm.1 (hnone n), fun _ => ?_⟩
    rw [Mark.flatMap_text_split, ← hb] at hr hn
    have hw := h.warnings_eq_nil (s := s) (by simp [hb])
    rw [← h.settings_eq]
    refine ⟨hw, hr, ?_⟩
    rw [hn, next_of_body_nil rfl]
    simp [behind, warn, hw]

/-- Marks do not overlap: in `(*(*)*)*)x` the first `)` stands for itself, and so does the one in
`(*)`. -/
theorem comments_with_crowded_marks :
    (ofText {} ['(', '*', '(', '*', ')', '*', ')', '*', ')', 'x']).read.2.rest = ['x'] ∧
      (ofText {} ['(', '*', ')']).read.2.warnings = [unclosedComment {} Location.start] := by
  constructor
  · have hs : Reached {} ['(', '*', '(', '*', ')', '*', ')', '*', ')', 'x'] _ := .start
    obtain ⟨_, _, h⟩ := comment_ends_at_match hs
    have hm : Mark.Matches 1 (Mark.split ['(', '*', ')', '*', ')', '*', ')', 'x']) 3 := by decide
    obtain ⟨lit, rest, rfl, hrest, hr, _⟩ := (h _ rfl).1 3 hm
    rw [hr]
    exact List.append_cancel_left hrest
  · have hs : Reached {} ['(', '*', ')'] _ := .start
    obtain ⟨_, _, h⟩ := comment_ends_at_match hs
    have hm : ∀ n, ¬ Mark.Matches 1 (Mark.split [')']) n := by
      rintro (_ | n) ⟨hb, _⟩
      · exact Mark.not_balances_char_zero _ hb
      · exact Mark.not_balances_nil _ n ((Mark.balances_char_succ _).1 hb)
    rw [((h _ rfl).2 hm).2.1]
    rfl

end Stream

end SmallMl
