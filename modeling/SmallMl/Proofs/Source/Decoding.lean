import SmallMl.Source.Utf8

/-!
# Well-formed sequences and all other bytes

What a byte string stands for can be said by the encodings of the characters alone
(`Utf8.Decodes`): the encoding of a character stands for the character, and a byte that starts no
encoding stands for one replacement character.  Every byte string stands for one text in this sense,
the one that `Utf8.decode` reads (`Utf8.decodes_iff`).  So truncated and overlong sequences,
surrogates and code points that are too large are taken byte by byte.

The bounds on the bytes, which `Utf8.lead` checks, are in between.  A `Sequence` is a string of
bytes within these bounds, with the code point that they make up.

* `Utf8.Sequence.lead_append`, `Utf8.lead_cases`: `lead` reads a sequence whatever stands behind it,
  and where none starts it reads one byte.
* `Utf8.Sequence.encodeChar_eq`, `Utf8.exists_sequence`: sequences are the encodings of characters.
* `Utf8.decode_encode`: a text is read back from its bytes.
-/

namespace SmallMl.Utf8

open String (utf8EncodeChar)

/-- The byte `a` and the bytes `t` behind it are within the bounds and make up the code point
`v`. -/
inductive Sequence (a : UInt8) : List UInt8 → Nat → Prop
  | one {v : Nat} : a < 0x80 → a.toNat = v → Sequence a [] v
  | two {b : UInt8} {v : Nat} : (0xC2 ≤ a && a ≤ 0xDF) = true → isTail b = true →
      a.toNat % 32 * 64 + payload b = v → Sequence a [b] v
  | three {b c : UInt8} {v : Nat} : (0xE0 ≤ a && a ≤ 0xEF) = true →
      (allows a b && isTail c) = true →
      (a.toNat % 16 * 64 + payload b) * 64 + payload c = v → Sequence a [b, c] v
  | four {b c d : UInt8} {v : Nat} : (0xF0 ≤ a && a ≤ 0xF4) = true →
      (allows a b && isTail c && isTail d) = true →
      ((a.toNat % 8 * 64 + payload b) * 64 + payload c) * 64 + payload d = v →
      Sequence a [b, c, d] v

/-! ### Bounds as numbers -/

theorem between_iff {a l u : UInt8} :
    (l ≤ a && a ≤ u) = true ↔ l.toNat ≤ a.toNat ∧ a.toNat ≤ u.toNat := by
  simp [UInt8.le_iff_toNat_le]

theorem isTail_iff {b : UInt8} : isTail b = true ↔ 0x80 ≤ b.toNat ∧ b.toNat ≤ 0xBF := between_iff

/-- The second byte is a continuation byte that rules out overlong forms, surrogates and code points
that are too large. -/
theorem allows_iff {a b : UInt8} : allows a b = true ↔
    isTail b = true ∧ (a.toNat = 0xE0 → 0xA0 ≤ b.toNat) ∧ (a.toNat = 0xED → b.toNat ≤ 0x9F) ∧
      (a.toNat = 0xF0 → 0x90 ≤ b.toNat) ∧ (a.toNat = 0xF4 → b.toNat ≤ 0x8F) := by
  rw [isTail_iff]
  unfold allows
  simp only [← UInt8.toNat_inj]
  repeat' split
  all_goals simp only [between_iff, isTail_iff, UInt8.reduceToNat] at *
  all_goals omega

/-! ### Reading a sequence -/

variable {a : UInt8} {t : List UInt8} {v : Nat}

/-- **A sequence is read** whatever stands behind it. -/
theorem Sequence.lead_append (h : Sequence a t v) (s : List UInt8) :
    lead a (t ++ s) = (Char.ofNat v, t.length) := by
  -- a lead byte is in one of the four intervals only
  have above : ∀ {l u m : UInt8}, (l ≤ a && a ≤ u) = true → m.toNat ≤ l.toNat → ¬a < m := by
    intro l u m h hm
    rw [UInt8.lt_iff_toNat_lt]
    have := between_iff.1 h
    omega
  have outside : ∀ {l u l' m : UInt8}, (l ≤ a && a ≤ u) = true → m.toNat < l.toNat →
      ¬(l' ≤ a && a ≤ m) = true := by
    intro l u l' m h hm h'
    have := between_iff.1 h
    have := between_iff.1 h'
    omega
  cases h with
  | one ha hv =>
    rw [← hv]
    exact if_pos ha
  | two ha hb hv =>
    rw [← hv, lead.eq_def, if_neg (above ha (by decide)), if_pos ha]
    exact if_pos hb
  | three ha hb hv =>
    rw [← hv, lead.eq_def, if_neg (above ha (by decide)), if_neg (outside ha (by decide)),
      if_pos ha]
    exact if_pos hb
  | four ha hb hv =>
    rw [← hv, lead.eq_def, if_neg (above ha (by decide)), if_neg (outside ha (by decide)),
      if_neg (outside ha (by decide)), if_pos ha]
    exact if_pos hb

/-- **Either a sequence is read or one byte that is no character.** -/
theorem lead_cases (a : UInt8) (r : List UInt8) :
    (∃ t s v, r = t ++ s ∧ Sequence a t v) ∨ lead a r = (replacement, 0) := by
  by_cases h1 : a < 0x80
  · exact .inl ⟨[], r, _, rfl, .one h1 rfl⟩
  rw [lead.eq_def, if_neg h1]
  by_cases h2 : (0xC2 ≤ a && a ≤ 0xDF) = true
  · rw [if_pos h2]
    match r with
    | [] => exact .inr rfl
    | b :: s =>
      by_cases hb : isTail b = true
      · exact .inl ⟨[b], s, _, rfl, .two h2 hb rfl⟩
      · exact .inr (if_neg hb)
  rw [if_neg h2]
  by_cases h3 : (0xE0 ≤ a && a ≤ 0xEF) = true
  · rw [if_pos h3]
    match r with
    | [] | [_] => exact .inr rfl
    | b :: c :: s =>
      by_cases hb : (allows a b && isTail c) = true
      · exact .inl ⟨[b, c], s, _, rfl, .three h3 hb rfl⟩
      · exact .inr (if_neg hb)
  rw [if_neg h3]
  by_cases h4 : (0xF0 ≤ a && a ≤ 0xF4) = true
  · rw [if_pos h4]
    match r with
    | [] | [_] | [_, _] => exact .inr rfl
    | b :: c :: d :: s =>
      by_cases hb : (allows a b && isTail c && isTail d) = true
      · exact .inl ⟨[b, c, d], s, _, rfl, .four h4 hb rfl⟩
      · exact .inr (if_neg hb)
  · exact .inr (if_neg h4)

/-! ### Encodings -/

section

variable {c : Char}

theorem encodeChar_one (h : c.toNat < 0x80) : utf8EncodeChar c = [UInt8.ofNat c.toNat] :=
  if_pos (Nat.le_of_lt_succ h)

theorem encodeChar_two (h : 0x80 ≤ c.toNat) (h' : c.toNat < 0x800) :
    utf8EncodeChar c =
      [UInt8.ofNat (c.toNat / 64 % 32 + 0xC0), UInt8.ofNat (c.toNat % 64 + 0x80)] :=
  (if_neg (Nat.not_le_of_lt h)).trans (if_pos (Nat.le_of_lt_succ h'))

theorem encodeChar_three (h : 0x800 ≤ c.toNat) (h' : c.toNat < 0x10000) :
    utf8EncodeChar c = [UInt8.ofNat (c.toNat / 4096 % 16 + 0xE0),
      UInt8.ofNat (c.toNat / 64 % 64 + 0x80), UInt8.ofNat (c.toNat % 64 + 0x80)] := by
  have h1 : ¬c.val.toNat ≤ 0x7F := Nat.not_le_of_lt (Nat.lt_of_lt_of_le (by decide) h)
  exact (if_neg h1).trans ((if_neg (Nat.not_le_of_lt h)).trans (if_pos (Nat.le_of_lt_succ h')))

theorem encodeChar_four (h : 0x10000 ≤ c.toNat) :
    utf8EncodeChar c = [UInt8.ofNat (c.toNat / 262144 % 8 + 0xF0),
      UInt8.ofNat (c.toNat / 4096 % 64 + 0x80), UInt8.ofNat (c.toNat / 64 % 64 + 0x80),
      UInt8.ofNat (c.toNat % 64 + 0x80)] := by
  have h1 : ¬c.val.toNat ≤ 0x7F := Nat.not_le_of_lt (Nat.lt_of_lt_of_le (by decide) h)
  have h2 : ¬c.val.toNat ≤ 0x7FF := Nat.not_le_of_lt (Nat.lt_of_lt_of_le (by decide) h)
  exact (if_neg h1).trans ((if_neg h2).trans (if_neg (Nat.not_le_of_lt h)))

end

theorem toNat_ofNat_of_isValidChar (h : v.isValidChar) : (Char.ofNat v).toNat = v := by
  rw [Char.ofNat, dif_pos h]
  rfl

/-- **A sequence is the encoding of a character.** -/
theorem Sequence.encodeChar_eq (h : Sequence a t v) : utf8EncodeChar (Char.ofNat v) = a :: t := by
  have byte : ∀ {n : Nat} {b : UInt8}, n = b.toNat → UInt8.ofNat n = b := by
    rintro n b rfl
    exact UInt8.ofNat_toNat
  -- the bounds put the code point into the range for its number of bytes
  cases h with
  | one ha hv =>
    have hlt : a.toNat < 0x80 := UInt8.lt_iff_toNat_lt.1 ha
    have hc : (Char.ofNat v).toNat = v := toNat_ofNat_of_isValidChar (.inl (by omega))
    rw [encodeChar_one (by omega), byte (b := a) (by omega)]
  | @two b _ ha hb hv =>
    have ha' : 0xC2 ≤ a.toNat ∧ a.toNat ≤ 0xDF := between_iff.1 ha
    rw [isTail_iff] at hb
    rw [payload] at hv
    have hc : (Char.ofNat v).toNat = v := toNat_ofNat_of_isValidChar (.inl (by omega))
    rw [encodeChar_two (by omega) (by omega), byte (b := a) (by omega), byte (b := b) (by omega)]
  | @three b c _ ha hb hv =>
    have ha' : 0xE0 ≤ a.toNat ∧ a.toNat ≤ 0xEF := between_iff.1 ha
    simp only [Bool.and_eq_true, allows_iff, isTail_iff] at hb
    simp only [payload] at hv
    have hc : (Char.ofNat v).toNat = v :=
      toNat_ofNat_of_isValidChar (by unfold Nat.isValidChar; omega)
    rw [encodeChar_three (by omega) (by omega), byte (b := a) (by omega), byte (b := b) (by omega),
      byte (b := c) (by omega)]
  | @four b c d _ ha hb hv =>
    have ha' : 0xF0 ≤ a.toNat ∧ a.toNat ≤ 0xF4 := between_iff.1 ha
    simp only [Bool.and_eq_true, allows_iff, isTail_iff] at hb
    simp only [payload] at hv
    have hc : (Char.ofNat v).toNat = v :=
      toNat_ofNat_of_isValidChar (by unfold Nat.isValidChar; omega)
    rw [encodeChar_four (by omega), byte (b := a) (by omega), byte (b := b) (by omega),
      byte (b := c) (by omega), byte (b := d) (by omega)]

theorem toNat_byte {n : Nat} (h : n < 256) : (UInt8.ofNat n).toNat = n :=
  UInt8.toNat_ofNat_of_lt' h

/-- **The encoding of a character is a sequence.** -/
theorem exists_sequence (c : Char) : ∃ a t, utf8EncodeChar c = a :: t ∧ Sequence a t c.toNat := by
  have hc : c.toNat < 0xD800 ∨ 0xDFFF < c.toNat ∧ c.toNat < 0x110000 := c.valid
  by_cases h1 : c.toNat < 0x80
  · have ha := toNat_byte (n := c.toNat) (by omega)
    refine ⟨_, _, encodeChar_one h1, .one ?_ ha⟩
    rw [UInt8.lt_iff_toNat_lt, ha]
    exact h1
  by_cases h2 : c.toNat < 0x800
  · have ha := toNat_byte (n := c.toNat / 64 % 32 + 0xC0) (by omega)
    have hb := toNat_byte (n := c.toNat % 64 + 0x80) (by omega)
    refine ⟨_, _, encodeChar_two (by omega) h2, .two ?_ ?_ ?_⟩
    · simp only [between_iff, ha, UInt8.reduceToNat]
      omega
    · rw [isTail_iff, hb]
      omega
    · rw [payload, ha, hb]
      omega
  by_cases h3 : c.toNat < 0x10000
  · have ha := toNat_byte (n := c.toNat / 4096 % 16 + 0xE0) (by omega)
    have hb := toNat_byte (n := c.toNat / 64 % 64 + 0x80) (by omega)
    have hd := toNat_byte (n := c.toNat % 64 + 0x80) (by omega)
    refine ⟨_, _, encodeChar_three (by omega) h3, .three ?_ ?_ ?_⟩
    · simp only [between_iff, ha, UInt8.reduceToNat]
      omega
    · simp only [Bool.and_eq_true, allows_iff, isTail_iff, ha, hb, hd]
      omega
    · simp only [payload, ha, hb, hd]
      omega
  · have ha := toNat_byte (n := c.toNat / 262144 % 8 + 0xF0) (by omega)
    have hb := toNat_byte (n := c.toNat / 4096 % 64 + 0x80) (by omega)
    have hd := toNat_byte (n := c.toNat / 64 % 64 + 0x80) (by omega)
    have he := toNat_byte (n := c.toNat % 64 + 0x80) (by omega)
    refine ⟨_, _, encodeChar_four (by omega), .four ?_ ?_ ?_⟩
    · simp only [between_iff, ha, UInt8.reduceToNat]
      omega
    · simp only [Bool.and_eq_true, allows_iff, isTail_iff, ha, hb, hd, he]
      omega
    · simp only [payload, ha, hb, hd, he]
      omega

/-! ### Texts -/

/-- The bytes stand for the text: the encoding of a character for the character, and a byte that
starts no encoding for one replacement character. -/
inductive Decodes : List UInt8 → List Char → Prop
  | nil : Decodes [] []
  | char (c : Char) {bytes : List UInt8} {cs : List Char} : Decodes bytes cs →
      Decodes (utf8EncodeChar c ++ bytes) (c :: cs)
  | invalid (a : UInt8) {bytes : List UInt8} {cs : List Char} :
      (∀ c rest, a :: bytes ≠ utf8EncodeChar c ++ rest) → Decodes bytes cs →
      Decodes (a :: bytes) (replacement :: cs)

theorem decode_encodeChar_append (c : Char) (bytes : List UInt8) :
    decode (utf8EncodeChar c ++ bytes) = c :: decode bytes := by
  obtain ⟨a, t, hc, ht⟩ := exists_sequence c
  rw [hc, List.cons_append, decode_cons, ht.lead_append, Char.ofNat_toNat, List.drop_left]

theorem ne_encodeChar_append {r : List UInt8} (h : lead a r = (replacement, 0)) (c : Char)
    (rest : List UInt8) : a :: r ≠ utf8EncodeChar c ++ rest := by
  intro he
  obtain ⟨b, t, hc, ht⟩ := exists_sequence c
  rw [hc, List.cons_append] at he
  obtain ⟨rfl, rfl⟩ := List.cons.inj he
  rw [ht.lead_append, Char.ofNat_toNat] at h
  -- the replacement character itself has three bytes
  obtain ⟨rfl, ht0⟩ := Prod.mk.inj h
  have hl := congrArg List.length hc
  rw [List.length_cons, ht0] at hl
  exact absurd hl (by decide)

theorem decodes_decode (bytes : List UInt8) : Decodes bytes (decode bytes) := by
  fun_induction decode bytes with
  | case1 => exact .nil
  | case2 a r ih =>
    rcases lead_cases a r with ⟨t, s, v, rfl, ht⟩ | hl
    · rw [ht.lead_append, List.drop_left] at ih
      rw [ht.lead_append, ← List.cons_append, ← ht.encodeChar_eq]
      exact .char _ (by rwa [List.drop_left])
    · rw [hl] at ih ⊢
      exact .invalid a (ne_encodeChar_append hl) ih

/-- **Every byte string stands for one text**, which is the one that is read. -/
theorem decodes_iff {bytes : List UInt8} {cs : List Char} :
    Decodes bytes cs ↔ cs = decode bytes := by
  constructor
  · intro h
    induction h with
    | nil => exact decode_nil.symm
    | char c _ ih => rw [decode_encodeChar_append, ih]
    | @invalid a bytes cs ha _ ih =>
      rcases lead_cases a bytes with ⟨t, s, v, rfl, ht⟩ | hl
      · exact absurd (by rw [ht.encodeChar_eq, List.cons_append]) (ha (Char.ofNat v) s)
      · rw [decode_cons, hl, ih, List.drop_zero]
  · rintro rfl
    exact decodes_decode bytes

/-- A sequence that is cut off, an overlong one and a surrogate: each byte stands alone. -/
example : decode [0xE2, 0x82, 0x41, 0xC0, 0xAF, 0xED, 0xA0, 0x80] =
    [replacement, replacement, 'A', replacement, replacement, replacement, replacement,
      replacement] := by
  decide +kernel

/-! ### The bytes of a text -/

/-- Listing the bytes of an array from the place `i` on, with those in front of it listed. -/
theorem toList_loop {b : ByteArray} {i : Nat} {r : List UInt8}
    (h : r.reverse = b.data.toList.take i) : ByteArray.toList.loop b i r = b.data.toList := by
  fun_induction ByteArray.toList.loop b i r with
  | case1 i r hi ih =>
    have hlt : i < b.data.toList.length := by simpa using hi
    have hget : b.get! i = b.data.toList[i] := by simp [ByteArray.get!, hi]
    exact ih (by rw [List.reverse_cons, h, hget, List.take_append_getElem hlt])
  | case2 i r hi => rw [h, List.take_of_length_le (by simpa using hi)]

theorem encode_eq (s : String) : encode s = s.toList.flatMap utf8EncodeChar := by
  rw [encode, String.toUTF8_eq_toByteArray, ByteArray.toList, toList_loop rfl,
    ← String.utf8Encode_toList, List.utf8Encode, List.data_toByteArray]

/-- **A text is read back from its bytes.** -/
theorem decode_encode (s : String) : decode (encode s) = s.toList := by
  rw [encode_eq]
  induction s.toList with
  | nil => exact decode_nil
  | cons c cs ih => rw [List.flatMap_cons, decode_encodeChar_append, ih]

end SmallMl.Utf8
