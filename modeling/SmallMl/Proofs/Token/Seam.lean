import SmallMl.Token.Stream

/-!
# Reading across a line break

A blank ends every lexeme but a comment, and no lexeme looks further than the blank.  So what is
read of a text stays the same when a blank and any other text are put behind it:

* `Utf8.decode_append_newline`: a newline also ends a character that is cut off, so the bytes on
  both sides of it are decoded on their own;
* `Lexeme.read_append`: a lexeme other than an unclosed comment is the same with the longer text;
* `Stream.next_extend`: and so is every result but the end token.

The end token is the one exception, as it must be.  It is where the added text is noticed.
-/

namespace SmallMl

/-! ### Bytes -/

namespace Utf8

def newline : UInt8 := 10

theorem isTail_newline : isTail newline = false := by decide

theorem allows_newline (a : UInt8) : allows a newline = false := by
  unfold allows
  repeat' split
  all_goals decide

/-- A character that is cut off by a newline is as ill-formed as one that is cut off by the end. -/
theorem lead_append_newline (a : UInt8) (r s : List UInt8) :
    lead a (r ++ newline :: s) = lead a r := by
  have ht := isTail_newline
  have ha := allows_newline a
  unfold lead
  match r with
  | [] =>
    rcases s with _ | ⟨c, _ | ⟨d, s⟩⟩ <;> simp [ht, ha]
  | [b] =>
    rcases s with _ | ⟨d, s⟩ <;> simp [ht]
  | [b, c] => simp [ht]
  | b :: c :: d :: r => simp

theorem lead_le_length (a : UInt8) (r : List UInt8) : (lead a r).2 ≤ r.length := by
  unfold lead
  repeat' split
  all_goals simp

/-- **A newline separates characters**: the bytes on both sides of it are decoded on their own. -/
theorem decode_append_newline (r s : List UInt8) :
    decode (r ++ newline :: s) = decode r ++ '\n' :: decode s := by
  fun_induction decode r with
  | case1 =>
    rw [List.nil_append, decode_cons]
    rfl
  | case2 a r ih =>
    rw [List.cons_append, decode_cons, lead_append_newline,
      List.drop_append_of_le_length (lead_le_length a r), ih, List.cons_append]

end Utf8

/-! ### Lexemes -/

section Runs

variable {p : Char → Bool} {b : Char}

theorem takeWhile_append_stop (h : p b = false) (m : List Char) :
    ∀ l : List Char, (l ++ b :: m).takeWhile p = l.takeWhile p := by
  intro l
  induction l with
  | nil => simp [h]
  | cons c r ih =>
    rw [List.cons_append, List.takeWhile_cons, List.takeWhile_cons, ih]

theorem dropWhile_append_stop (h : p b = false) (m : List Char) :
    ∀ l : List Char, (l ++ b :: m).dropWhile p = l.dropWhile p ++ b :: m := by
  intro l
  induction l with
  | nil => simp [h]
  | cons c r ih =>
    rw [List.cons_append, List.dropWhile_cons, List.dropWhile_cons]
    split
    · exact ih
    · rfl

end Runs

namespace Lexeme

theorem eq_of_isBlank {b : Char} (h : isBlank b = true) :
    b = ' ' ∨ b = '\t' ∨ b = '\n' ∨ b = '\r' := by
  simpa [isBlank, or_assoc] using h

/-- A character that stands in no word, no numeral and no operator, so it ends all of them. -/
def isStop (b : Char) : Bool := !isWordChar b && !isOperatorChar b && b != '.'

theorem isStop_of_isBlank {b : Char} (h : isBlank b = true) : isStop b = true := by
  rcases eq_of_isBlank h with rfl | rfl | rfl | rfl <;> decide

variable {b : Char} (hb : isStop b = true)
include hb

theorem isWordChar_stop : isWordChar b = false := by
  simp only [isStop, Bool.and_eq_true, Bool.not_eq_true'] at hb
  exact hb.1.1

theorem isLetter_stop : isLetter b = false := by
  have h := isWordChar_stop hb
  simp only [isWordChar, Bool.or_eq_false_iff] at h
  exact h.1.1

theorem isDigit_stop : Digits.isDigit b = false := by
  have h := isWordChar_stop hb
  simp only [isWordChar, Bool.or_eq_false_iff] at h
  exact h.1.2

theorem isOperatorChar_stop : isOperatorChar b = false := by
  simp only [isStop, Bool.and_eq_true, Bool.not_eq_true'] at hb
  exact hb.1.2

theorem ne_of_isStop {c : Char} (hc : isStop c = false) : b ≠ c := by
  rintro rfl
  rw [hb] at hc
  exact Bool.noConfusion hc

theorem startsWithLetter_append (r m : List Char) :
    startsWithLetter (r ++ b :: m) = startsWithLetter r := by
  cases r with
  | nil => exact isLetter_stop hb
  | cons c r => rfl

theorem splitWord_append_stop (m : List Char) : ∀ r,
    splitWord (r ++ b :: m) = ((splitWord r).1, (splitWord r).2 ++ b :: m) := by
  intro r
  induction r with
  | nil =>
    have hd : b ≠ '.' := ne_of_isStop hb (by decide)
    simp [splitWord, isWordChar_stop hb, hd]
  | cons c r ih =>
    rw [List.cons_append, splitWord, splitWord, startsWithLetter_append hb, ih]
    split <;> rfl

theorem word_append (r m : List Char) :
    word (r ++ b :: m) = { word r with rest := (word r).rest ++ b :: m } := by
  simp only [word, splitWord_append_stop hb]

theorem readFraction_append (r m : List Char) :
    Numeral.readFraction (r ++ b :: m)
      = ((Numeral.readFraction r).1, (Numeral.readFraction r).2 ++ b :: m) := by
  have hd := isDigit_stop hb
  cases r with
  | nil =>
    have hp : b ≠ '.' := ne_of_isStop hb (by decide)
    simp [Numeral.readFraction, hp]
  | cons c r =>
    simp only [Numeral.readFraction, List.cons_append, takeWhile_append_stop hd,
      dropWhile_append_stop hd]
    split <;> rfl

theorem readSign_append (r m : List Char) :
    Exponent.readSign (r ++ b :: m)
      = ((Exponent.readSign r).1, (Exponent.readSign r).2 ++ b :: m) := by
  cases r with
  | nil =>
    have hp : b ≠ '+' := ne_of_isStop hb (by decide)
    have hm : b ≠ '-' := ne_of_isStop hb (by decide)
    simp [Exponent.readSign, hp, hm]
  | cons c r =>
    simp only [Exponent.readSign, List.cons_append]
    split <;> rfl

theorem readExponent_append (r m : List Char) :
    Exponent.read (r ++ b :: m) = ((Exponent.read r).1, (Exponent.read r).2 ++ b :: m) := by
  have hd := isDigit_stop hb
  cases r with
  | nil =>
    have he : b ≠ 'e' := ne_of_isStop hb (by decide)
    have hE : b ≠ 'E' := ne_of_isStop hb (by decide)
    simp [Exponent.read, he, hE]
  | cons c r =>
    simp only [Exponent.read, List.cons_append, readSign_append hb, takeWhile_append_stop hd,
      dropWhile_append_stop hd]
    split <;> rfl

theorem readNumeral_append (r m : List Char) :
    Numeral.read (r ++ b :: m) = ((Numeral.read r).1, (Numeral.read r).2 ++ b :: m) := by
  have hd := isDigit_stop hb
  simp only [Numeral.read, takeWhile_append_stop hd, dropWhile_append_stop hd,
    readFraction_append hb, readExponent_append hb]

theorem numeral_append (r m : List Char) :
    numeral (r ++ b :: m) = { numeral r with rest := (numeral r).rest ++ b :: m } := by
  simp only [numeral, readNumeral_append hb]

theorem splitOperator_append_stop (r m : List Char) :
    splitOperator (r ++ b :: m) = ((splitOperator r).1, (splitOperator r).2 ++ b :: m) := by
  have ho := isOperatorChar_stop hb
  simp only [splitOperator, takeWhile_append_stop ho, dropWhile_append_stop ho]
  cases r.dropWhile isOperatorChar with
  | nil =>
    have hp : b ≠ '.' := ne_of_isStop hb (by decide)
    simp [hp]
  | cons c r' =>
    simp only [List.cons_append]
    split <;> rfl

theorem operator_append (r m : List Char) :
    operator (r ++ b :: m) = { operator r with rest := (operator r).rest ++ b :: m } := by
  simp only [operator, splitOperator_append_stop hb]

omit hb in
theorem splitComment_append_closed (m : List Char) : ∀ depth r, (splitComment depth r).2.2 = false →
    splitComment depth (r ++ m)
      = ((splitComment depth r).1, (splitComment depth r).2.1 ++ m, false) := by
  intro depth r
  fun_induction splitComment depth r with
  | case1 r => intro _; simp [splitComment]
  | case2 => intro h; exact Bool.noConfusion h
  | case3 => intro h; exact Bool.noConfusion h
  | case4 depth c d r hc s ih =>
    intro h
    rw [List.cons_append, List.cons_append, splitComment, if_pos hc, ih h]
  | case5 depth c d r hc hc' s ih =>
    intro h
    rw [List.cons_append, List.cons_append, splitComment, if_neg hc, if_pos hc', ih h]
  | case6 depth c d r hc hc' s ih =>
    intro h
    rw [List.cons_append, List.cons_append, splitComment, if_neg hc, if_neg hc',
      ← List.cons_append, ih h]

theorem paren_append_stop (r m : List Char) (h : (paren r).unclosed = false) :
    paren (r ++ b :: m) = { paren r with rest := (paren r).rest ++ b :: m } := by
  cases r with
  | nil =>
    have hs : b ≠ '*' := ne_of_isStop hb (by decide)
    simp [paren, hs]
  | cons c r =>
    simp only [paren, List.cons_append] at h ⊢
    split
    · next hc =>
      rw [if_pos hc] at h
      rw [splitComment_append_closed (b :: m) 1 r h, h]
    · rfl

/-- **A blank ends every lexeme** but a comment that is not closed, and so does every other
character that stands in no word, numeral or operator. -/
theorem read_append (c : Char) (r m : List Char) (h : (read c r).unclosed = false) :
    read c (r ++ b :: m) = { read c r with rest := (read c r).rest ++ b :: m } := by
  unfold read at h ⊢
  split
  · exact word_append hb (c :: r) m
  split
  · exact numeral_append hb (c :: r) m
  split
  · exact operator_append hb (c :: r) m
  split
  · next h1 h2 h3 h4 =>
    rw [if_neg h1, if_neg h2, if_neg h3, if_pos h4] at h
    exact paren_append_stop hb r m h
  split <;> rfl

omit hb in
theorem splitComment_rest_of_unclosed : ∀ depth r, (splitComment depth r).2.2 = true →
    (splitComment depth r).2.1 = [] := by
  intro depth r
  fun_induction splitComment depth r with
  | case1 => intro h; exact Bool.noConfusion h
  | case2 => intro _; rfl
  | case3 => intro _; rfl
  | case4 depth c d r hc s ih => exact ih
  | case5 depth c d r hc hc' s ih => exact ih
  | case6 depth c d r hc hc' s ih => exact ih

omit hb in
/-- What is not closed is a comment, and it goes on to the end of the text. -/
theorem found_rest_of_unclosed {c : Char} {r : List Char} (h : (read c r).unclosed = true) :
    (read c r).found = .ok .comment ∧ (read c r).rest = [] := by
  unfold read at h ⊢
  split at h
  · exact Bool.noConfusion h
  split at h
  · exact Bool.noConfusion h
  split at h
  · exact Bool.noConfusion h
  split at h
  · next h1 h2 h3 h4 =>
    rw [if_neg h1, if_neg h2, if_neg h3, if_pos h4]
    unfold paren at h ⊢
    split at h
    · exact Bool.noConfusion h
    split at h
    · next hs =>
      rw [if_pos hs]
      exact ⟨rfl, splitComment_rest_of_unclosed _ _ h⟩
    · exact Bool.noConfusion h
  split at h <;> exact Bool.noConfusion h

end Lexeme

/-! ### Streams -/

namespace Stream

def extend (s : Stream) (m : List Char) : Stream := { s with rest := s.rest ++ m }

theorem read_cases (s : Stream) :
    (s.body = [] ∧ s.read = (.ok (endToken s.here), { s with rest := [], loc := s.here })) ∨
      ∃ c r, s.body = c :: r ∧
        s.read = (s.result (Lexeme.read c r), s.behind (Lexeme.read c r)) := by
  unfold read
  cases h : s.body with
  | nil => exact Or.inl ⟨rfl, rfl⟩
  | cons c r => exact Or.inr ⟨c, r, rfl, rfl⟩

theorem next_of_comment {s : Stream} {t : Token} (h : s.read.1 = .ok t)
    (hc : t.isComment = true) : s.next = s.read.2.next := by
  rw [next]
  split
  · next t' h' =>
    rw [h] at h'
    cases h'
    rw [dif_pos hc]
  · next d h' =>
    rw [h] at h'
    cases h'

theorem next_of_token {s : Stream} {t : Token} (h : s.read.1 = .ok t)
    (hc : t.isComment = false) : s.next = s.read := by
  rw [next]
  split
  · next t' h' =>
    rw [h] at h'
    cases h'
    rw [dif_neg (by simp [hc]), ← h]
  · next d h' =>
    rw [h] at h'
    cases h'

theorem next_of_error {s : Stream} {d : Diagnostic} (h : s.read.1 = .error d) :
    s.next = s.read := by
  rw [next]
  split
  · next t' h' =>
    rw [h] at h'
    cases h'
  · next d' h' => rw [← h']

theorem next_of_body_nil {s : Stream} (h : s.body = []) :
    s.next = (.ok (endToken s.here), { s with rest := [], loc := s.here }) := by
  rcases s.read_cases with ⟨_, hr⟩ | ⟨c, r, hc, _⟩
  · rw [next_of_token (t := endToken s.here) (by rw [hr]) rfl, hr]
  · rw [h] at hc
    cases hc

theorem body_extend {s : Stream} (h : s.body ≠ []) (m : List Char) :
    (s.extend m).body = s.body ++ m := by
  rw [body] at h
  rw [body, body, extend, List.dropWhile_append, if_neg (by simpa using h)]

theorem here_extend {s : Stream} (h : s.body ≠ []) (m : List Char) :
    (s.extend m).here = s.here := by
  rw [body] at h
  rw [here, here, extend, List.takeWhile_append, if_neg]
  intro hl
  apply h
  have := congrArg List.length (List.takeWhile_append_dropWhile (p := Lexeme.isBlank) (l := s.rest))
  rw [List.length_append] at this
  exact List.eq_nil_of_length_eq_zero (by omega)

/-- A lexeme that a blank ends is read in the same way, and the added text is still to come. -/
theorem read_extend {b : Char} (hb : Lexeme.isBlank b = true) {s : Stream} {c : Char}
    {r : List Char} (h : s.body = c :: r) (hu : (Lexeme.read c r).unclosed = false)
    (m : List Char) : (s.extend (b :: m)).read = (s.read.1, s.read.2.extend (b :: m)) := by
  have hn : s.body ≠ [] := by simp [h]
  have hbody : (s.extend (b :: m)).body = c :: (r ++ b :: m) := by
    rw [body_extend hn, h, List.cons_append]
  rw [read, hbody, read, h]
  simp only [Lexeme.read_append (Lexeme.isStop_of_isBlank hb) c r m hu, result, behind,
    here_extend hn, hu]
  rfl

/-- If the next result is not the end token, a lexeme is next, and it is closed: behind a comment
that is not closed there is only the end token. -/
theorem read_of_more {s : Stream} (h : More s.next.1) :
    ∃ c r, s.body = c :: r ∧ (Lexeme.read c r).unclosed = false ∧
      s.read = (s.result (Lexeme.read c r), s.behind (Lexeme.read c r)) := by
  rcases s.read_cases with ⟨hb, _⟩ | ⟨c, r, hbody, hr⟩
  · rw [next_of_body_nil hb] at h
    exact Bool.noConfusion (h _ rfl)
  · refine ⟨c, r, hbody, ?_, hr⟩
    cases hu : (Lexeme.read c r).unclosed with
    | false => rfl
    | true =>
      exfalso
      obtain ⟨hf, hrest⟩ := Lexeme.found_rest_of_unclosed hu
      have hc : s.read.1 = .ok ⟨.comment, ⟨s.here, s.here.after (Lexeme.read c r).text⟩,
          (Lexeme.read c r).text⟩ := by rw [hr, result, hf]
      have hnil : s.read.2.body = [] := by
        rw [hr, body, rest_behind, hrest]
        rfl
      rw [next_of_comment hc rfl, next_of_body_nil hnil] at h
      exact Bool.noConfusion (h _ rfl)

/-- **Added text is not noticed before the end token.** -/
theorem next_extend {b : Char} (hb : Lexeme.isBlank b = true) (m : List Char) (s : Stream)
    (h : More s.next.1) : (s.extend (b :: m)).next = (s.next.1, s.next.2.extend (b :: m)) := by
  obtain ⟨c, r, hbody, hu, _⟩ := read_of_more h
  have he := read_extend hb hbody hu m
  fun_induction next s generalizing c r with
  | case1 s t ht hc ih =>
    rw [next_of_comment (by rw [he]; exact ht) hc, he]
    obtain ⟨c', r', hbody', hu', hr'⟩ := read_of_more h
    exact ih h c' r' hbody' hu' hr' (read_extend hb hbody' hu' m)
  | case2 s t ht hc => rw [next_of_token (by rw [he]; exact ht) (by simpa using hc), he, ht]
  | case3 s d hd => rw [next_of_error (by rw [he]; exact hd), he, hd]

end Stream

end SmallMl
