import SmallMl.Proofs.Number.ReadBack
import SmallMl.Proofs.Source.Decoding
import SmallMl.Proofs.Token.Longest

/-!
# Floats in listings

Listings show a finite number with its shortest digits, written out or with an exponent, and with a
point at the end where nothing else tells it from an integer.  This text is a float literal of the
language, for every finite number without sign: it is read as one token with the number as its
value, and nothing is left over.

That the text is that of a numeral with this value is `Binary64.exists_numeral`.  A numeral is read
to its end (`Numeral.Proper.read_text`), and it starts with a digit, so the reader of numerals is
called for it.
-/

namespace SmallMl

namespace Stream

variable {v : Binary64}

/-- **A call in front of a number takes its text.** -/
theorem takes_sourceText (settings : Settings) (hf : v.isFinite = true)
    (hn : v.isNegative = false) :
    (ofText settings v.sourceText.toList).body = v.sourceText.toList ∧
      (ofText settings v.sourceText.toList).here = .start ∧
      (ofText settings v.sourceText.toList).Takes v.sourceText.toList (.ok (.float v)) := by
  obtain ⟨n, hp, hfloat, hne, ht, hv⟩ := Binary64.exists_numeral hf hn
  obtain ⟨c, w, hw⟩ := List.exists_cons_of_ne_nil hne
  have hc : Digits.isDigit c = true := hp.whole c (by simp [hw])
  obtain ⟨r, hr⟩ : ∃ r, n.text = c :: r := ⟨_, by rw [Numeral.text, hw, List.cons_append]⟩
  obtain ⟨hbody, hhere⟩ := start_of_isDigit settings (r := r) hc
  have hk : Lexeme.numeralKind n = .ok (.float v) := by
    rw [Lexeme.numeralKind, if_pos hfloat, hv]
  have htakes := takes_numeral hbody hc
  rw [← hr] at hbody hhere htakes
  rw [hbody, hp.read_text, hk] at htakes
  rw [← ht]
  exact ⟨hbody, hhere, htakes⟩

/-- **Numbers in listings are float literals.**  The text of a finite number without sign is read,
with comments or without them, as one token that covers the whole text and has the number as its
value, and the end token follows.  There is no error and no warning. -/
theorem sourceText_reads_back (settings : Settings) (hf : v.isFinite = true)
    (hn : v.isNegative = false) :
    (ofBytes settings (Utf8.encode v.sourceText)).readAll =
        ([.ok ⟨.float v, ⟨.start, Location.start.after v.sourceText.toList⟩, v.sourceText.toList⟩,
            .ok (endToken (Location.start.after v.sourceText.toList))],
          ⟨settings, [], Location.start.after v.sourceText.toList, [], []⟩) ∧
      (ofBytes settings (Utf8.encode v.sourceText)).nextAll =
        (ofBytes settings (Utf8.encode v.sourceText)).readAll := by
  obtain ⟨hbody, hhere, rest, hrest, hbehind, hfound⟩ := takes_sourceText settings hf hn
  obtain rfl : [] = rest := by
    rw [hbody] at hrest
    exact List.append_cancel_left ((List.append_nil _).trans hrest)
  have hall := readAll_of_last (Prod.ext hfound hbehind) rfl
  rw [hhere, past, hhere] at hall
  rw [nextAll_eq, ofBytes, Utf8.decode_encode, hall]
  exact ⟨rfl, rfl⟩

/-- Zero, the least number above it, and the millionth one. -/
theorem smallest_texts_read_back :
    (⟨0⟩ : Binary64).sourceText = "0." ∧ (⟨1⟩ : Binary64).sourceText = "5e-324" ∧
      (⟨1000000⟩ : Binary64).sourceText = "4.940656e-318" ∧
      (ofBytes {} (Utf8.encode "0.")).readAll.1
        = [.ok ⟨.float ⟨0⟩, ⟨.start, ⟨1, 3, 2⟩⟩, "0.".toList⟩, .ok (endToken ⟨1, 3, 2⟩)] ∧
      (ofBytes {} (Utf8.encode "5e-324")).readAll.2 = ⟨{}, [], ⟨1, 7, 6⟩, [], []⟩ ∧
      (ofBytes {} (Utf8.encode "4.940656e-318")).nextAll.1
        = [.ok ⟨.float ⟨1000000⟩, ⟨.start, ⟨1, 14, 13⟩⟩, "4.940656e-318".toList⟩,
            .ok (endToken ⟨1, 14, 13⟩)] := by
  have ht0 : (⟨0⟩ : Binary64).sourceText = "0." := by decide +kernel
  have ht1 : (⟨1⟩ : Binary64).sourceText = "5e-324" := by decide +kernel
  have ht2 : (⟨1000000⟩ : Binary64).sourceText = "4.940656e-318" := by decide +kernel
  have h0 := sourceText_reads_back {} (v := ⟨0⟩) (by decide) (by decide)
  have h1 := sourceText_reads_back {} (v := ⟨1⟩) (by decide) (by decide)
  have h2 := sourceText_reads_back {} (v := ⟨1000000⟩) (by decide) (by decide)
  rw [ht0] at h0
  rw [ht1] at h1
  rw [ht2] at h2
  refine ⟨ht0, ht1, ht2, ?_, ?_, ?_⟩
  · rw [h0.1]
    rfl
  · rw [h1.1]
    rfl
  · rw [h2.2, h2.1]
    rfl

end Stream

end SmallMl
