import SmallMl.Proofs.Token.Tiling

/-!
# Cutting a piece out of a text

A lexeme looks at most at the character behind it, and only to see that it does not go on.  So a
lexeme stays what it is when the text behind it is cut off (`Lexeme.read_trim`), and also when
something else is put there that starts with a character no lexeme goes on with
(`Lexeme.read_recut`).

`Lexes cs us rest` says that the text `cs` starts with the tokens `us`, wherever it stands, and that
`rest` is behind them.  Places do not count here: `us` are tokens without their ranges.

* `Lexes.token`, `Lexes.blank`, `Lexes.append`: texts are put together from lexemes and blanks.
* `Stream.Emits.lexes`: a stretch of a text gives the same tokens when it is cut out.
* `Stream.Emits.lexes_cut`: this is the stretch that the range of the tokens covers.
-/

namespace SmallMl

/-! ### Text that is cut off behind a lexeme -/

/-- What the function takes off the front of a text does not change when text that it leaves is cut
off. -/
def Trims {α : Type} (f : List Char → α × List Char) : Prop :=
  ∀ l m x, (f (l ++ m)).2 = x ++ m → f l = ((f (l ++ m)).1, x)

theorem eq_nil_of_suffix {m x y : List Char} (hs : y <:+ m) (h : y = x ++ m) : x = [] ∧ y = m := by
  have hl := hs.length_le
  rw [h, List.length_append] at hl
  have hx : x = [] := List.eq_nil_of_length_eq_zero (by omega)
  subst hx
  exact ⟨rfl, h⟩

theorem exists_append_of_suffix {x m y : List Char} (h : x ++ m <:+ y) : ∃ z, y = z ++ x ++ m := by
  obtain ⟨z, rfl⟩ := h
  exact ⟨z, (List.append_assoc z x m).symm⟩

theorem dropWhile_trim {p : Char → Bool} {m x : List Char} : ∀ {l : List Char},
    (l ++ m).dropWhile p = x ++ m →
      l.dropWhile p = x ∧ (l ++ m).takeWhile p = l.takeWhile p := by
  intro l
  induction l with
  | nil =>
    intro h
    obtain ⟨rfl, hm⟩ := eq_nil_of_suffix (List.dropWhile_suffix p) h
    have hs := List.takeWhile_append_dropWhile (p := p) (l := m)
    rw [List.nil_append] at hm ⊢
    rw [hm, List.append_left_eq_self] at hs
    exact ⟨rfl, hs⟩
  | cons c l ih =>
    intro h
    rw [List.cons_append, List.dropWhile_cons] at h
    rw [List.cons_append, List.dropWhile_cons, List.takeWhile_cons, List.takeWhile_cons]
    split at h
    · next hc =>
      obtain ⟨h₁, h₂⟩ := ih h
      simp only [hc, if_true]
      exact ⟨h₁, by rw [h₂]⟩
    · next hc =>
      simp only [hc]
      rw [← List.cons_append] at h
      exact ⟨List.append_cancel_right h, rfl⟩

namespace Lexeme

theorem splitWord_suffix (l : List Char) : (splitWord l).2 <:+ l := ⟨_, splitWord_append l⟩

theorem splitWord_ne_nil {l : List Char} (h : startsWithLetter l = true) :
    (splitWord l).1 ≠ [] := by
  cases l with
  | nil => cases h
  | cons c r =>
    have hl : isLetter c = true := h
    simp [splitWord, isWordChar, hl]

theorem splitWord_trims : Trims splitWord := by
  intro l m x
  induction l with
  | nil =>
    intro h
    obtain ⟨rfl, hm⟩ := eq_nil_of_suffix (splitWord_suffix _) h
    have hs := splitWord_append ([] ++ m)
    rw [hm, List.append_left_eq_self] at hs
    rw [hs]
    rfl
  | cons c l ih =>
    intro h
    rw [List.cons_append, splitWord] at h
    rw [List.cons_append, splitWord, splitWord]
    split at h
    · next hc =>
      have hi := ih h
      -- a point that a letter follows is not the last character that is left
      have hc' : (isWordChar c || (c = '.' && startsWithLetter l)) = true := by
        cases l with
        | cons d l => exact hc
        | nil =>
          by_cases hs : startsWithLetter ([] ++ m) = true
          · have hn := splitWord_ne_nil hs
            rw [show (splitWord ([] ++ m)).1 = [] from (congrArg Prod.fst hi).symm] at hn
            exact absurd rfl hn
          · rw [Bool.not_eq_true] at hs
            rw [hs, Bool.and_false, Bool.or_false] at hc
            rw [hc, Bool.true_or]
      rw [if_pos hc, if_pos hc', hi]
    · next hc =>
      have hc' : ¬(isWordChar c || (c = '.' && startsWithLetter l)) = true := by
        cases l with
        | cons d l => exact hc
        | nil =>
          intro h'
          apply hc
          have hw : isWordChar c = true := by simpa [startsWithLetter] using h'
          rw [hw, Bool.true_or]
      rw [if_neg hc, if_neg hc']
      rw [← List.cons_append] at h
      rw [List.append_cancel_right h]

end Lexeme

namespace Numeral

theorem readFraction_suffix (l : List Char) : (readFraction l).2 <:+ l :=
  ⟨_, fractionText_append_read l⟩

theorem readExponent_suffix (l : List Char) : (Exponent.read l).2 <:+ l :=
  ⟨_, exponentText_append_read l⟩

theorem readFraction_trims : Trims readFraction := by
  intro l m x h
  cases l with
  | nil =>
    obtain ⟨rfl, hm⟩ := eq_nil_of_suffix (readFraction_suffix _) h
    have hs := fractionText_append_read ([] ++ m)
    rw [hm, List.append_left_eq_self] at hs
    cases hf : (readFraction ([] ++ m)).1 with
    | none => rfl
    | some ds =>
      rw [hf] at hs
      cases hs
  | cons c l =>
    rw [List.cons_append, readFraction] at h
    rw [List.cons_append, readFraction, readFraction]
    split at h
    · next hc =>
      obtain ⟨h₁, h₂⟩ := dropWhile_trim h
      rw [if_pos hc, if_pos hc, h₁, h₂]
    · next hc =>
      rw [if_neg hc, if_neg hc]
      rw [← List.cons_append] at h
      rw [List.append_cancel_right h]

theorem readSign_trims : Trims Exponent.readSign := by
  intro l m x h
  cases l with
  | nil =>
    obtain ⟨rfl, hm⟩ := eq_nil_of_suffix ⟨_, sign_append_readSign _⟩ h
    have hs := sign_append_readSign ([] ++ m)
    rw [hm, List.append_left_eq_self, Option.toList_eq_nil_iff] at hs
    rw [hs]
    rfl
  | cons c l =>
    rw [List.cons_append, Exponent.readSign] at h
    rw [List.cons_append, Exponent.readSign, Exponent.readSign]
    split at h
    · next hc =>
      rw [if_pos hc, if_pos hc, List.append_cancel_right h]
    · next hc =>
      rw [if_neg hc, if_neg hc]
      rw [← List.cons_append] at h
      rw [List.append_cancel_right h]

theorem readExponent_trims : Trims Exponent.read := by
  intro l m x h
  cases l with
  | nil =>
    obtain ⟨rfl, hm⟩ := eq_nil_of_suffix (readExponent_suffix _) h
    have hs := exponentText_append_read ([] ++ m)
    rw [hm, List.append_left_eq_self] at hs
    cases he : (Exponent.read ([] ++ m)).1 with
    | none => rfl
    | some e =>
      rw [he] at hs
      cases hs
  | cons c l =>
    rw [List.cons_append, Exponent.read] at h
    rw [List.cons_append, Exponent.read, Exponent.read]
    split at h
    · next hc =>
      rw [if_pos hc, if_pos hc]
      -- the sign leaves the digits, and these leave `x ++ m`
      have hd : (Exponent.readSign (l ++ m)).2.dropWhile Digits.isDigit = x ++ m := h
      obtain ⟨z, hz⟩ := exists_append_of_suffix (hd ▸ List.dropWhile_suffix Digits.isDigit)
      have hsign := readSign_trims l m (z ++ x) hz
      rw [hz] at hd
      obtain ⟨h₁, h₂⟩ := dropWhile_trim hd
      simp only [hsign, h₁, hz, h₂]
    · next hc =>
      rw [if_neg hc, if_neg hc]
      rw [← List.cons_append] at h
      rw [List.append_cancel_right h]

theorem read_trims : Trims Numeral.read := by
  intro l m x h
  have hx : (Exponent.read (readFraction ((l ++ m).dropWhile Digits.isDigit)).2).2 = x ++ m := h
  obtain ⟨z, hz⟩ := exists_append_of_suffix (hx ▸ readExponent_suffix _)
  obtain ⟨w, hw⟩ := exists_append_of_suffix (hz ▸ readFraction_suffix _)
  obtain ⟨h₁, h₂⟩ := dropWhile_trim hw
  have hf := readFraction_trims (w ++ (z ++ x)) m (z ++ x) (by rw [← hw, hz])
  rw [hz] at hx
  have he := readExponent_trims (z ++ x) m x hx
  have hz' : (readFraction (w ++ (z ++ x) ++ m)).2 = z ++ x ++ m := by rw [← hw, hz]
  simp only [Numeral.read, h₁, h₂, hw, hf, hz', he]

end Numeral

namespace Lexeme

theorem splitOperator_trims : Trims splitOperator := by
  intro l m x h
  have hs : (splitOperator (l ++ m)).2 <:+ (l ++ m).dropWhile isOperatorChar := by
    unfold splitOperator
    dsimp only
    split
    · exact List.nil_suffix
    · next c r hr =>
      rw [hr]
      split
      · exact List.suffix_cons c r
      · exact List.suffix_rfl
  obtain ⟨z, hz⟩ := exists_append_of_suffix (h ▸ hs)
  obtain ⟨h₁, h₂⟩ := dropWhile_trim hz
  simp only [splitOperator] at h ⊢
  rw [hz] at h
  rw [h₁, h₂, hz]
  rw [h₂] at h
  cases z with
  | nil =>
    -- the point is not taken, since it is left
    cases x with
    | nil =>
      cases m with
      | nil => rfl
      | cons c m =>
        simp only [List.nil_append] at h ⊢
        split at h
        · have := congrArg List.length h
          simp at this
        · next hc => rw [if_neg hc]
    | cons c x =>
      simp only [List.nil_append, List.cons_append] at h ⊢
      split at h
      · have := congrArg List.length h
        simp at this
      · next hc => rw [if_neg hc, if_neg hc]
  | cons c z =>
    simp only [List.cons_append] at h ⊢
    split at h
    · next hc =>
      rw [if_pos hc, if_pos hc, List.append_cancel_right h]
    · have := congrArg List.length h
      simp at this
      omega

theorem splitComment_ne_nil {depth : Nat} {l : List Char}
    (h : (splitComment (depth + 1) l).2.2 = false) : (splitComment (depth + 1) l).1 ≠ [] := by
  match l with
  | [] => cases h
  | [c] => cases h
  | c :: d :: r =>
    rw [splitComment]
    split
    · simp
    · split <;> simp

/-- A comment is not closed by text that it leaves. -/
theorem splitComment_rest_ne {depth : Nat} {m x : List Char} :
    (splitComment (depth + 1) m).2 ≠ (x ++ m, false) := by
  intro h
  have hn := splitComment_ne_nil (congrArg Prod.snd h)
  have ha := splitComment_append (depth + 1) m
  rw [congrArg Prod.fst h] at ha
  have hl := congrArg List.length ha
  have hp := List.length_pos_iff.2 hn
  simp only [List.length_append] at hl
  omega

theorem splitComment_trim {m x : List Char} : ∀ {depth : Nat} {l : List Char},
    (splitComment depth (l ++ m)).2 = (x ++ m, false) →
      splitComment depth l = ((splitComment depth (l ++ m)).1, x, false) := by
  intro depth l
  fun_induction splitComment depth l with
  | case1 l =>
    intro h
    rw [splitComment] at h ⊢
    rw [List.append_cancel_right (congrArg Prod.fst h)]
  | case2 depth =>
    intro h
    exact absurd h splitComment_rest_ne
  | case3 depth c =>
    intro h
    exfalso
    cases m with
    | nil => exact Bool.noConfusion (congrArg Prod.snd h)
    | cons d m =>
      have hs := (splitComment_append · m)
      rw [List.cons_append, List.nil_append, splitComment] at h
      split at h
      · have hl := congrArg List.length (hs depth)
        rw [congrArg Prod.fst h] at hl
        simp only [List.length_append, List.length_cons] at hl
        omega
      split at h
      · have hl := congrArg List.length (hs (depth + 2))
        rw [congrArg Prod.fst h] at hl
        simp only [List.length_append, List.length_cons] at hl
        omega
      · exact absurd h splitComment_rest_ne
  | case4 depth c d r hc s ih =>
    intro h
    rw [List.cons_append, List.cons_append, splitComment, if_pos hc] at h ⊢
    rw [show s = _ from ih h]
  | case5 depth c d r hc hc' s ih =>
    intro h
    rw [List.cons_append, List.cons_append, splitComment, if_neg hc, if_pos hc'] at h ⊢
    rw [show s = _ from ih h]
  | case6 depth c d r hc hc' s ih =>
    intro h
    rw [List.cons_append, List.cons_append, splitComment, if_neg hc, if_neg hc'] at h ⊢
    rw [show s = _ from ih h, List.cons_append]

theorem paren_trim {r m x : List Char} (h : (paren (r ++ m)).rest = x ++ m)
    (hu : (paren (r ++ m)).unclosed = false) : paren r = { paren (r ++ m) with rest := x } := by
  cases r with
  | nil =>
    cases m with
    | nil =>
      simp only [paren, List.append_nil] at h ⊢
      rw [← h]
    | cons c m =>
      rw [List.nil_append, paren] at h hu ⊢
      split at h
      · next hc =>
        have hl := congrArg List.length (splitComment_append 1 m)
        have hr : (splitComment 1 m).2.1 = x ++ c :: m := h
        rw [hr] at hl
        simp only [List.length_append, List.length_cons] at hl
        omega
      · next hc =>
        rw [if_neg hc]
        have hx : x = [] := (eq_nil_of_suffix (m := c :: m) List.suffix_rfl h).1
        rw [hx]
        rfl
  | cons c r =>
    rw [List.cons_append, paren] at h hu
    rw [List.cons_append, paren, paren]
    split at h
    · next hc =>
      rw [if_pos hc] at hu ⊢
      rw [if_pos hc, splitComment_trim (Prod.ext h hu)]
      exact congrArg (Lexeme.mk _ _ _) hu.symm
    · next hc =>
      rw [if_neg hc, if_neg hc]
      rw [← List.cons_append] at h
      rw [List.append_cancel_right h]

/-- **A lexeme stays what it is** when the text behind it is cut off. -/
theorem read_trim {c : Char} {r m x : List Char} (h : (read c (r ++ m)).rest = x ++ m)
    (hu : (read c (r ++ m)).unclosed = false) : read c r = { read c (r ++ m) with rest := x } := by
  unfold read at h hu ⊢
  by_cases hl : isLetter c = true
  · rw [if_pos hl] at h
    rw [if_pos hl, if_pos hl]
    have hs := splitWord_trims (c :: r) m x h
    simp only [word, hs, List.cons_append]
  rw [if_neg hl] at h hu
  rw [if_neg hl, if_neg hl]
  by_cases hd : Digits.isDigit c = true
  · rw [if_pos hd] at h
    rw [if_pos hd, if_pos hd]
    have hs := Numeral.read_trims (c :: r) m x h
    simp only [numeral, hs, List.cons_append]
  rw [if_neg hd] at h hu
  rw [if_neg hd, if_neg hd]
  by_cases ho : isOperatorChar c = true
  · rw [if_pos ho] at h
    rw [if_pos ho, if_pos ho]
    have hs := splitOperator_trims (c :: r) m x h
    simp only [operator, hs, List.cons_append]
  rw [if_neg ho] at h hu
  rw [if_neg ho, if_neg ho]
  by_cases hp : c = '('
  · rw [if_pos hp] at h hu
    rw [if_pos hp, if_pos hp]
    exact paren_trim h hu
  rw [if_neg hp] at h
  rw [if_neg hp, if_neg hp]
  cases hk : Kind.ofMark? c with
  | some k =>
    rw [hk] at h
    rw [List.append_cancel_right h]
  | none =>
    rw [hk] at h
    rw [List.append_cancel_right h]

/-- What is behind a lexeme may be exchanged, from any place on, for text that starts with a
character no lexeme goes on with. -/
theorem read_recut {b c : Char} {r m x : List Char} (hb : isStop b = true)
    (h : (read c (r ++ m)).rest = x ++ m) (hu : (read c (r ++ m)).unclosed = false)
    (m' : List Char) :
    read c (r ++ b :: m') = { read c (r ++ m) with rest := x ++ b :: m' } := by
  have ht := read_trim h hu
  rw [read_append hb c r m' (by rw [ht]; exact hu), ht]

end Lexeme

/-! ### Tokens without their places -/

def Token.bare (t : Token) : Token := { t with range := default }

@[simp] theorem Token.bare_kind (t : Token) : t.bare.kind = t.kind := rfl

@[simp] theorem Token.bare_lit (t : Token) : t.bare.lit = t.lit := rfl

/-- The text starts with the tokens, given without their places, wherever it stands. -/
def Lexes (cs : List Char) (us : List Token) (rest : List Char) : Prop :=
  ∀ s : Stream, s.rest = cs → ∃ ts s', s.Emits ts s' ∧ s'.rest = rest ∧ ts.map Token.bare = us

namespace Lexes

variable {cs rest rest' : List Char} {us vs : List Token}

theorem nil (cs : List Char) : Lexes cs [] cs := fun s hs => ⟨[], s, .refl s, hs, rfl⟩

theorem append (h : Lexes cs us rest) (g : Lexes rest vs rest') : Lexes cs (us ++ vs) rest' := by
  intro s hs
  obtain ⟨ts, s₁, he, hr, ht⟩ := h s hs
  obtain ⟨ts', s₂, he', hr', ht'⟩ := g s₁ hr
  exact ⟨ts ++ ts', s₂, he.append he', hr', by rw [List.map_append, ht, ht']⟩

theorem token {c : Char} {r w : List Char} {k : Kind} (hc : Lexeme.isBlank c = false)
    (hr : Lexeme.read c r = ⟨w, rest, .ok k, false⟩) (hk : k.isComment = false)
    (he : k.isEof = false) : Lexes (c :: r) [⟨k, default, w⟩] rest := by
  intro s hs
  have hbody : s.body = c :: r := by
    rw [Stream.body, hs, List.dropWhile_cons_of_neg (by simp [hc])]
  have hread : s.read = (.ok ⟨k, ⟨s.here, s.here.after w⟩, w⟩,
      { s with rest := rest, loc := s.here.after w }) := by
    rw [Stream.read, hbody]
    simp only [hr, Stream.result, Stream.behind]
    rfl
  have hn : s.next = s.read :=
    Stream.next_of_token (t := ⟨k, ⟨s.here, s.here.after w⟩, w⟩) (by rw [hread]) hk
  refine ⟨[⟨k, ⟨s.here, s.here.after w⟩, w⟩], s.next.2, .head ?_ he (.refl _), ?_, rfl⟩
  · rw [hn, hread]
  · rw [hn, hread]

theorem blank {b : Char} (hb : Lexeme.isBlank b = true) (h : Lexes cs us rest) (hu : us ≠ []) :
    Lexes (b :: cs) us rest := by
  intro s hs
  obtain ⟨ts, s', he, hr, ht⟩ := h { s with rest := cs, loc := s.loc.after [b] } rfl
  refine ⟨ts, s', ?_, hr, ht⟩
  have hbs : ∀ a ∈ [b], Lexeme.isBlank a = true := by simpa using hb
  have hn := Stream.next_blanks hbs s.settings cs s.loc s.warnings s.heard
  have hse : (⟨s.settings, [b] ++ cs, s.loc, s.warnings, s.heard⟩ : Stream) = s := by
    rw [List.singleton_append, ← hs]
  rw [hse] at hn
  cases he with
  | refl => exact absurd ht.symm hu
  | head hnx hte he => exact .head (by rw [hn, hnx]) hte (by rw [hn]; exact he)

end Lexes

/-! ### A stretch of a text -/

namespace Stream

theorem read_suffix (s : Stream) : s.read.2.rest <:+ s.rest := by
  have hb : s.body <:+ s.rest := List.dropWhile_suffix _
  rcases s.read_cases with ⟨_, hr⟩ | ⟨c, r, hbody, hr⟩
  · rw [hr]
    exact List.nil_suffix
  · rw [hr, rest_behind]
    rw [hbody] at hb
    exact List.IsSuffix.trans ⟨_, Lexeme.text_append_rest c r⟩ hb

theorem next_suffix (s : Stream) : s.next.2.rest <:+ s.rest := by
  fun_induction next s with
  | case1 s t ht hc ih => exact ih.trans s.read_suffix
  | case2 s t ht hc => exact s.read_suffix
  | case3 s d hd => exact s.read_suffix

theorem Emits.suffix {src src' : Stream} {ts : List Token} (h : src.Emits ts src') :
    src'.rest <:+ src.rest := by
  induction h with
  | refl => exact List.suffix_rfl
  | head _ _ _ ih => exact ih.trans (next_suffix _)

section

variable {s s' : Stream} {l l' m m' : List Char} {b : Char}

/-- A result, when what is left behind it is exchanged. -/
theorem read_recut (hb : Lexeme.isStop b = true) {c : Char} {r : List Char}
    (hbody : s.body = c :: r)
    (hu : (Lexeme.read c r).unclosed = false) (hs : s.rest = l ++ m)
    (hr : s.read.2.rest = l' ++ m) (hs' : s'.rest = l ++ b :: m') {t : Token}
    (ht : s.read.1 = .ok t) :
    ∃ t', s'.read.1 = .ok t' ∧ t'.bare = t.bare ∧ s'.read.2.rest = l' ++ b :: m' := by
  have hread : s.read = (s.result (Lexeme.read c r), s.behind (Lexeme.read c r)) := by
    rw [read, hbody]
  rw [hread, rest_behind] at hr
  -- the lexeme and what follows it end in front of `m`
  have hx : c :: r = ((Lexeme.read c r).text ++ l') ++ m := by
    rw [List.append_assoc, ← hr, Lexeme.text_append_rest]
  obtain ⟨w, hw⟩ : ∃ w, (Lexeme.read c r).text ++ l' = c :: w := by
    cases hn : (Lexeme.read c r).text ++ l' with
    | nil =>
      have := (List.append_eq_nil_iff.1 hn).1
      exact absurd this (Lexeme.text_ne_nil c r)
    | cons d w =>
      rw [hn, List.cons_append] at hx
      rw [(List.cons.inj hx).1]
      exact ⟨w, rfl⟩
  rw [hw, List.cons_append] at hx
  have hrw : r = w ++ m := (List.cons.inj hx).2
  subst hrw
  have hd : l.dropWhile Lexeme.isBlank = c :: w := by
    rw [body, hs, ← List.cons_append] at hbody
    exact (dropWhile_trim hbody).1
  have hbody' : s'.body = c :: (w ++ b :: m') := by
    have hn : l.dropWhile Lexeme.isBlank ≠ [] := by simp [hd]
    rw [body, hs', List.dropWhile_append, if_neg (by simpa using hn), hd, List.cons_append]
  have hlex := Lexeme.read_recut hb hr hu m'
  rw [read, hbody']
  rw [hread, result] at ht
  simp only [hlex, result, rest_behind]
  cases hf : (Lexeme.read c (w ++ m)).found with
  | error f => rw [hf] at ht; cases ht
  | ok k =>
    rw [hf] at ht
    cases ht
    exact ⟨_, rfl, rfl, trivial⟩

theorem next_recut (hb : Lexeme.isStop b = true) (hs : s.rest = l ++ m)
    (hr : s.next.2.rest = l' ++ m) (hs' : s'.rest = l ++ b :: m') {t : Token}
    (ht : s.next.1 = .ok t) (he : t.isEof = false) :
    ∃ t', s'.next.1 = .ok t' ∧ t'.bare = t.bare ∧ s'.next.2.rest = l' ++ b :: m' := by
  obtain ⟨c, r, hbody, hu, _⟩ := read_of_more (ht ▸ more_ok he)
  fun_induction next s generalizing s' l c r with
  | case1 s c' hc' hcc ih =>
    -- a comment is exchanged first
    obtain ⟨z, hz⟩ := exists_append_of_suffix (hr ▸ s.read.2.next_suffix)
    obtain ⟨t', ht', hbare, hrest⟩ := read_recut hb hbody hu hs hz hs' hc'
    have hcc' : t'.isComment = true := by
      rw [Token.isComment, ← Token.bare_kind, hbare]
      exact hcc
    obtain ⟨c₁, r₁, hbody₁, hu₁, hread₁⟩ := read_of_more (ht ▸ more_ok he)
    rw [next_of_comment ht' hcc']
    exact ih hz hr hrest ht c₁ r₁ hbody₁ hu₁ hread₁
  | case2 s c' hc' hcc =>
    cases ht
    obtain ⟨t', ht', hbare, hrest⟩ := read_recut hb hbody hu hs hr hs' hc'
    have hcc' : t'.isComment = false := by
      rw [Token.isComment, ← Token.bare_kind, hbare]
      exact Bool.eq_false_iff.2 hcc
    rw [next_of_token ht' hcc']
    exact ⟨t', ht', hbare, hrest⟩
  | case3 s d hd => cases ht

end

/-- **A stretch of a text gives the same tokens when it is cut out**, with a character behind it
that no lexeme goes on with. -/
theorem Emits.lexes {b : Char} (hb : Lexeme.isStop b = true) {src src' : Stream} {ts : List Token}
    (h : src.Emits ts src') : ∀ {l : List Char} (m : List Char), src.rest = l ++ src'.rest →
      Lexes (l ++ b :: m) (ts.map Token.bare) (b :: m) := by
  induction h with
  | refl src =>
    intro l m hl
    have hn : l = [] := (eq_nil_of_suffix List.suffix_rfl hl).1
    subst hn
    exact .nil _
  | @head src src' t ts hn he hem ih =>
    intro l m hl
    obtain ⟨z, hz⟩ := exists_append_of_suffix (x := []) hem.suffix
    rw [List.append_nil] at hz
    intro s hs
    obtain ⟨t', ht', hbare, hrest⟩ := next_recut hb hl hz hs hn he
    obtain ⟨ts', s', he', hr', hts⟩ := ih m hz s.next.2 hrest
    have heof : t'.isEof = false := by
      rw [Token.isEof, ← Token.bare_kind, hbare]
      exact he
    exact ⟨t' :: ts', s', .head ht' heof he', hr', by rw [List.map_cons, List.map_cons, hbare, hts]⟩

theorem At.exists_at_token {text : List Char} {s : Stream} {t : Token} (h : s.At text)
    (ht : s.next.1 = .ok t) (he : t.isEof = false) :
    ∃ s' : Stream, s'.At text ∧ s'.next = s.next ∧ s'.loc = t.range.start := by
  fun_induction Stream.next s with
  | case1 s c hc hcc ih => exact ih (h.read hc (Token.isEof_of_isComment hcc)).2.1 ht
  | case2 s c hc hcc =>
    cases ht
    obtain ⟨pre, hp, hl⟩ := h.here
    refine ⟨{ s with rest := s.body, loc := s.here }, ⟨pre, hp, hl⟩, ?_, ?_⟩
    · have hn : s.next = (.ok t, s.read.2) := by
        rw [next_of_token hc (Bool.eq_false_iff.2 hcc)]
        exact Prod.ext hc rfl
      rw [← hn]
      have hs : s.rest.takeWhile Lexeme.isBlank ++ s.body = s.rest :=
        List.takeWhile_append_dropWhile
      have hbs : ∀ b ∈ s.rest.takeWhile Lexeme.isBlank, Lexeme.isBlank b = true :=
        fun b hb => List.mem_takeWhile_imp hb
      have hb := next_blanks hbs s.settings s.body s.loc s.warnings s.heard
      rw [hs] at hb
      exact hb.symm
    · rcases s.read_cases with ⟨_, hr⟩ | ⟨c, r, _, hr⟩
      · rw [hr] at hc
        cases hc
        cases he
      · rw [hr] at hc
        rw [(of_result_eq_ok hc).1]
  | case3 s d hd => cases ht

theorem emits_append_inv {ts us : List Token} : ∀ {src src'' : Stream},
    src.Emits (ts ++ us) src'' → ∃ src', src.Emits ts src' ∧ src'.Emits us src'' := by
  induction ts with
  | nil =>
    intro src src'' h
    exact ⟨src, .refl src, h⟩
  | cons t ts ih =>
    intro src src'' h
    cases h with
    | head hn he h =>
      obtain ⟨src', h₁, h₂⟩ := ih h
      exact ⟨src', .head hn he h₁, h₂⟩

/-- The end of the last token is the place of the stream behind it. -/
theorem Emits.stop_eq {text : List Char} {src src' : Stream} {ts : List Token} {t : Token}
    (h : src.Emits (ts ++ [t]) src') (ha : src.At text) : t.range.stop = src'.loc := by
  obtain ⟨src₁, h₁, h₂⟩ := emits_append_inv h
  cases h₂ with
  | head hn he h₂ =>
    cases h₂
    exact (((h₁.placed ha).1).next hn he).2.2.2

/-- **The range of some tokens covers their text**: what it cuts out of the text gives these tokens
again. -/
theorem Emits.lexes_cut {b : Char} (hb : Lexeme.isStop b = true) {text : List Char}
    {src src' : Stream} {t u : Token} {ts : List Token} (h : src.Emits (t :: ts) src')
    (ha : src.At text) (hu : (t :: ts).getLast? = some u) (m : List Char) :
    Lexes (Range.cut text ⟨t.range.start, u.range.stop⟩ ++ b :: m) ((t :: ts).map Token.bare)
      (b :: m) := by
  have hstop : u.range.stop = src'.loc := by
    obtain ⟨vs, hv⟩ := List.getLast?_eq_some_iff.1 hu
    rw [hv] at h
    exact h.stop_eq ha
  obtain ⟨post, hpost, hloc'⟩ := (h.placed ha).1
  cases h with
  | head hn he h =>
    obtain ⟨s, hs, hnext, hloc⟩ := ha.exists_at_token hn he
    have hem : s.Emits (t :: ts) src' := .head (by rw [hnext, hn]) he (by rw [hnext]; exact h)
    obtain ⟨pre, hpre, hl⟩ := hs
    obtain ⟨z, hz⟩ := hem.suffix
    have hmid : pre ++ z = post := by
      rw [hpre, ← hz, ← List.append_assoc] at hpost
      exact List.append_cancel_right hpost
    have hcut : Range.cut text ⟨t.range.start, u.range.stop⟩ = z := by
      rw [← hloc, hstop, hl, hloc', ← hmid, hpre, ← hz, Range.cut_after]
    rw [hcut]
    exact hem.lexes hb m hz.symm

end Stream

/-- Tokens end where a character stands that no lexeme goes on with, as they end with the text. -/
theorem Lexes.extend {cs m : List Char} {us : List Token} (h : Lexes cs us [])
    (hm : ∀ b ∈ m.head?, Lexeme.isStop b = true) : Lexes (cs ++ m) us m := by
  cases m with
  | nil => rwa [List.append_nil]
  | cons b m =>
    obtain ⟨ts, s, he, hr, rfl⟩ := h (.ofText {} cs) rfl
    exact he.lexes (hm b rfl) m (by rw [hr, List.append_nil]; rfl)

end SmallMl
