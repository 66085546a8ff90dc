import Mathlib.Data.List.TakeWhile
import SmallMl.Proofs.Token.Word

/-!
# Closing the comment that a text ends in

A text may end inside a comment.  The comment is as deep as there are marks left open, and that many
closing marks on the next line close it (`Lexeme.read_closing`).  So every text whose next token is
the end token can be followed by a line of closing marks, perhaps an empty one, behind which reading
goes on as if nothing but blanks stood in front (`Stream.next_closing`).

A warning about such a comment arises in front of the end token only (`Stream.warnings_next`).
-/

namespace SmallMl

/-! ### Only the end of the text is the end token -/

namespace Kind

/-- What holds of the reserved words, and of identifiers, holds of every word. -/
theorem ofWord_of_reserved {P : List Char → Kind → Prop} (hr : ∀ p ∈ reserved, P p.1 p.2)
    (hi : ∀ w, P w ident) (w : List Char) : P w (ofWord w) := by
  rw [ofWord]
  cases h : reserved.lookup w with
  | none => exact hi w
  | some k =>
    obtain ⟨l₁, l₂, hl, _⟩ := List.lookup_eq_some_iff.1 h
    exact hr (w, k) (by simp [hl])

theorem ofWord_ne_eof (w : List Char) : ofWord w ≠ eof := by
  have hres : ∀ p ∈ reserved, p.2 ≠ eof := by decide
  exact ofWord_of_reserved (P := fun _ k => k ≠ eof) hres (fun _ => by simp) w

end Kind

namespace Lexeme

/-! ### What a token can be -/

theorem not_isLetter_of_isDigit {c : Char} (h : Digits.isDigit c = true) :
    isLetter c = false := by
  simp only [Digits.isDigit, isLetter, Bool.and_eq_true, decide_eq_true_eq, Char.le_def,
    UInt32.le_iff_toNat_le] at *
  simp only [Bool.or_eq_false_iff, Bool.and_eq_false_iff, decide_eq_false_iff_not]
  have h9 : ('9' : Char).val.toNat = 57 := rfl
  have ha : ('a' : Char).val.toNat = 97 := rfl
  have hA : ('A' : Char).val.toNat = 65 := rfl
  omega

theorem not_isDigit_of_isLetter {c : Char} (h : isLetter c = true) : Digits.isDigit c = false :=
  Bool.eq_false_iff.2 fun hd => by
    rw [not_isLetter_of_isDigit hd] at h
    cases h

theorem numeralKind_cases {n : Numeral} {k : Kind} (h : numeralKind n = .ok k) :
    (∃ v, n.toFloat? = some v ∧ k = .float v) ∨ ∃ v, n.toInt? = some v ∧ k = .int v := by
  unfold numeralKind at h
  split at h <;> split at h <;> cases h
  · exact .inl ⟨_, ‹_›, rfl⟩
  · exact .inr ⟨_, ‹_›, rfl⟩

theorem operatorKind_cases {run : List Char} {k : Kind} (h : operatorKind run = .ok k) :
    (k = .arrow ∧ run = ['-', '>']) ∨ (k = .leftArrow ∧ run = ['<', '-']) ∨
      ∃ o, k = .operator o ∧ run = o.spelling := by
  unfold operatorKind at h
  split at h
  · cases h
    exact .inl ⟨rfl, ‹_›⟩
  split at h
  · cases h
    exact .inr (.inl ⟨rfl, ‹_›⟩)
  split at h
  · next o ho =>
    cases h
    have hs := List.find?_some ho
    exact .inr (.inr ⟨o, rfl, (eq_of_beq hs).symm⟩)
  · cases h

/-- **What a token can be**: a word, a numeral, an operator, what starts with a parenthesis, or a
mark. -/
theorem found_cases {c : Char} {r : List Char} {k : Kind} (h : (read c r).found = .ok k) :
    k = .ofWord (read c r).text ∨ (∃ n, numeralKind n = .ok k) ∨
      operatorKind (read c r).text = .ok k ∨ (k = .lparen ∧ (read c r).text = ['(']) ∨
      k = .comment ∨ (Kind.ofMark? c = some k ∧ (read c r).text = [c]) := by
  unfold read at h ⊢
  split at h
  · next hc =>
    rw [if_pos hc]
    exact .inl (Except.ok.inj h).symm
  next hl =>
  rw [if_neg hl]
  split at h
  · next hc => exact .inr (.inl ⟨_, h⟩)
  next hd =>
  rw [if_neg hd]
  split at h
  · next hc =>
    rw [if_pos hc]
    exact .inr (.inr (.inl h))
  next ho =>
  rw [if_neg ho]
  split at h
  · next hc =>
    rw [if_pos hc]
    unfold paren at h ⊢
    split at h
    · cases h
      exact .inr (.inr (.inr (.inl ⟨rfl, rfl⟩)))
    · split at h <;> cases h
      · exact .inr (.inr (.inr (.inr (.inl rfl))))
      · next hs => exact .inr (.inr (.inr (.inl ⟨rfl, by rw [if_neg hs]⟩)))
  next hp =>
  rw [if_neg hp]
  cases hm : Kind.ofMark? c with
  | some k' =>
    rw [hm] at h
    cases h
    exact .inr (.inr (.inr (.inr (.inr ⟨rfl, rfl⟩))))
  | none =>
    rw [hm] at h
    cases h

theorem found_ne_eof (c : Char) (r : List Char) : (read c r).found ≠ .ok .eof := by
  intro h
  rcases found_cases h with hw | ⟨n, hn⟩ | ho | ⟨hp, _⟩ | hc | ⟨hm, _⟩
  · exact Kind.ofWord_ne_eof _ hw.symm
  · rcases numeralKind_cases hn with ⟨_, -, hk⟩ | ⟨_, -, hk⟩ <;> cases hk
  · rcases operatorKind_cases ho with ⟨hk, -⟩ | ⟨hk, -⟩ | ⟨_, hk, -⟩ <;> cases hk
  · cases hp
  · cases hc
  · unfold Kind.ofMark? at hm
    split at hm <;> cases hm

/-! ### Closing marks -/

def closing (depth : Nat) : List Char := (List.replicate depth ['*', ')']).flatten

theorem closing_succ (depth : Nat) : closing (depth + 1) = '*' :: ')' :: closing depth := by
  rw [closing, List.replicate_succ, List.flatten_cons]
  rfl

theorem ascii_closing (depth : Nat) : ∀ c ∈ closing depth, c.toNat < 128 := by
  induction depth with
  | zero => intro c hc; simp [closing] at hc
  | succ n ih =>
    intro c hc
    rw [closing_succ, List.mem_cons, List.mem_cons] at hc
    rcases hc with rfl | rfl | hc
    · decide
    · decide
    · exact ih c hc

theorem splitComment_closing (m : List Char) : ∀ depth,
    splitComment depth (closing depth ++ m) = (closing depth, m, false) := by
  intro depth
  induction depth with
  | zero => simp [closing, splitComment]
  | succ n ih => simp [closing_succ, splitComment, ih]

theorem splitComment_newline (depth : Nat) (m : List Char) :
    splitComment (depth + 1) ('\n' :: (closing (depth + 1) ++ m))
      = ('\n' :: closing (depth + 1), m, false) := by
  have h := splitComment_closing m (depth + 1)
  rw [closing_succ] at h ⊢
  rw [List.cons_append, List.cons_append] at h ⊢
  rw [splitComment, if_neg (by decide), if_neg (by decide), h]

/-- A comment that the text ends in is closed by as many marks as are left open. -/
theorem exists_closing_splitComment : ∀ depth r, (splitComment depth r).2.2 = true →
    ∃ n, ∀ m, splitComment depth (r ++ '\n' :: (closing n ++ m))
      = (r ++ '\n' :: closing n, m, false) := by
  intro depth r
  fun_induction splitComment depth r with
  | case1 => intro h; exact Bool.noConfusion h
  | case2 depth => exact fun _ => ⟨depth + 1, fun m => splitComment_newline depth m⟩
  | case3 depth c =>
    intro _
    refine ⟨depth + 1, fun m => ?_⟩
    rw [List.cons_append, List.nil_append, splitComment, if_neg (by simp), if_neg (by simp),
      splitComment_newline]
    rfl
  | case4 depth c d r hc s ih =>
    intro h
    obtain ⟨n, hn⟩ := ih h
    refine ⟨n, fun m => ?_⟩
    rw [List.cons_append, List.cons_append, splitComment, if_pos hc, hn m]
    rfl
  | case5 depth c d r hc hc' s ih =>
    intro h
    obtain ⟨n, hn⟩ := ih h
    refine ⟨n, fun m => ?_⟩
    rw [List.cons_append, List.cons_append, splitComment, if_neg hc, if_pos hc', hn m]
    rfl
  | case6 depth c d r hc hc' s ih =>
    intro h
    obtain ⟨n, hn⟩ := ih h
    refine ⟨n, fun m => ?_⟩
    have hm := hn m
    rw [List.cons_append] at hm
    rw [List.cons_append, List.cons_append, splitComment, if_neg hc, if_neg hc', hm]
    rfl

theorem read_closing {c : Char} {r : List Char} (h : (read c r).unclosed = true) :
    ∃ n, ∀ m, read c (r ++ '\n' :: (closing n ++ m))
      = ⟨c :: (r ++ '\n' :: closing n), m, .ok .comment, false⟩ := by
  unfold read at h ⊢
  split at h
  · exact Bool.noConfusion h
  split at h
  · exact Bool.noConfusion h
  split at h
  · exact Bool.noConfusion h
  split at h
  · next h1 h2 h3 h4 =>
    subst h4
    cases r with
    | nil => exact Bool.noConfusion h
    | cons d r =>
      unfold paren at h
      dsimp only at h
      split at h
      · next hs =>
        subst hs
        obtain ⟨n, hn⟩ := exists_closing_splitComment 1 r h
        refine ⟨n, fun m => ?_⟩
        simp [h1, h2, h3, paren, hn m]
      · exact Bool.noConfusion h
  split at h <;> exact Bool.noConfusion h

end Lexeme

/-! ### Streams -/

namespace Stream

theorem behind_of_closed {l : Lexeme} (h : l.unclosed = false) (s : Stream) :
    s.behind l = { s with rest := l.rest, loc := s.here.after l.text } := by
  simp [behind, h]

theorem body_eq_nil_of_eof {s : Stream} {t : Token} (h : s.read.1 = .ok t)
    (ht : t.isEof = true) : s.body = [] := by
  rcases s.read_cases with ⟨hb, _⟩ | ⟨c, r, _, hr⟩
  · exact hb
  · exfalso
    rw [hr, result] at h
    cases hf : (Lexeme.read c r).found with
    | error f => rw [hf] at h; cases h
    | ok k =>
      rw [hf] at h
      cases h
      cases k <;> first | exact Lexeme.found_ne_eof c r hf | exact Bool.noConfusion ht

/-- Only the end token comes with a warning. -/
theorem warnings_next {s : Stream} (h : More s.next.1) : s.next.2.warnings = s.warnings := by
  obtain ⟨c, r, _, hu, hr⟩ := read_of_more h
  have hw : s.read.2.warnings = s.warnings := by rw [hr, behind_of_closed hu]
  fun_induction next s generalizing c r with
  | case1 s t ht hc ih =>
    obtain ⟨c', r', hbody', hu', hr'⟩ := read_of_more h
    rw [ih h c' r' hbody' hu' hr' (by rw [hr', behind_of_closed hu']), hw]
  | case2 s t ht hc => exact hw
  | case3 s d hd => exact hw

theorem Emits.warnings_eq {src src' : Stream} {ts : List Token} (h : src.Emits ts src') :
    src'.warnings = src.warnings := by
  induction h with
  | refl => rfl
  | head hn ht _ ih => rw [ih, warnings_next (hn ▸ more_ok ht)]

/-- **A line of closing marks makes the end of a text a place to go on from.** -/
theorem next_closing {s : Stream} {t : Token} (h : s.next.1 = .ok t) (ht : t.isEof = true) :
    ∃ n, ∀ m, ∃ l, (s.extend ('\n' :: (Lexeme.closing n ++ '\n' :: m))).next
      = (⟨s.settings, '\n' :: m, l, s.warnings, s.heard⟩ : Stream).next := by
  have hnl : Lexeme.isBlank '\n' = true := by decide
  fun_induction next s with
  | case1 s t' ht' hc ih =>
    rcases s.read_cases with ⟨_, hr⟩ | ⟨c, r, hbody, hr⟩
    · rw [hr] at ht'
      cases ht'
      exact Bool.noConfusion hc
    · cases hu : (Lexeme.read c r).unclosed with
      | false =>
        obtain ⟨n, hn⟩ := ih h
        refine ⟨n, fun m => ?_⟩
        obtain ⟨l, hl⟩ := hn m
        have he := read_extend hnl hbody hu (Lexeme.closing n ++ '\n' :: m)
        refine ⟨l, ?_⟩
        rw [next_of_comment (by rw [he]; exact ht') hc, he, hl, hr, behind_of_closed hu]
      | true =>
        obtain ⟨n, hn⟩ := Lexeme.read_closing hu
        refine ⟨n, fun m => ?_⟩
        have hne : s.body ≠ [] := by simp [hbody]
        have hb : (s.extend ('\n' :: (Lexeme.closing n ++ '\n' :: m))).body
            = c :: (r ++ '\n' :: (Lexeme.closing n ++ '\n' :: m)) := by
          rw [body_extend hne, hbody, List.cons_append]
        have hhere := here_extend hne ('\n' :: (Lexeme.closing n ++ '\n' :: m))
        have he : (s.extend ('\n' :: (Lexeme.closing n ++ '\n' :: m))).read
            = (.ok ⟨.comment, ⟨s.here, s.here.after (c :: (r ++ '\n' :: Lexeme.closing n))⟩,
                c :: (r ++ '\n' :: Lexeme.closing n)⟩,
              ⟨s.settings, '\n' :: m, s.here.after (c :: (r ++ '\n' :: Lexeme.closing n)),
                s.warnings, s.heard⟩) := by
          rw [read, hb]
          simp only [hn, result, behind_of_closed, hhere]
          rfl
        exact ⟨_, by rw [next_of_comment (by rw [he]) rfl, he]⟩
  | case2 s t' ht' hc =>
    cases h
    have hbs : ∀ b ∈ s.rest, Lexeme.isBlank b = true :=
      List.dropWhile_eq_nil_iff.1 (body_eq_nil_of_eof ht' ht)
    refine ⟨0, fun m => ⟨s.loc.after (s.rest ++ ['\n']), ?_⟩⟩
    have he : s.extend ('\n' :: (Lexeme.closing 0 ++ '\n' :: m))
        = ⟨s.settings, (s.rest ++ ['\n']) ++ '\n' :: m, s.loc, s.warnings, s.heard⟩ := by
      simp [extend, Lexeme.closing]
    rw [he, next_blanks]
    intro b hb
    rcases List.mem_append.1 hb with hb | hb
    · exact hbs b hb
    · rw [List.mem_singleton.1 hb]
      exact hnl
  | case3 s d hd => cases h

end Stream

end SmallMl
