import Mathlib.Data.List.TakeWhile
import SmallMl.Number.Numeral

/-!
# What a numeral is made of

`Numeral.Proper` collects what the parts of a numeral of the source text are: digits, a mark and a
sign.  Every numeral that is read is proper (`Numeral.proper_read`), and a proper numeral is read
from its own text (`Numeral.Proper.read_text`).  The text of a proper numeral shows whether it is a
float (`Numeral.Proper.isFloat_iff`).
-/

namespace SmallMl

namespace Numeral

/-- The parts of the numeral are digits, a mark and a sign. -/
structure Proper (n : Numeral) : Prop where
  whole : ∀ c ∈ n.whole, Digits.isDigit c = true
  fraction : ∀ ds ∈ n.fraction, ∀ c ∈ ds, Digits.isDigit c = true
  mark : ∀ e ∈ n.exponent, e.mark = 'e' ∨ e.mark = 'E'
  sign : ∀ e ∈ n.exponent, ∀ c ∈ e.sign, c = '+' ∨ c = '-'
  power : ∀ e ∈ n.exponent, ∀ c ∈ e.digits, Digits.isDigit c = true

theorem of_readFraction {cs ds : List Char} (h : ds ∈ (readFraction cs).1) :
    ∀ c ∈ ds, Digits.isDigit c = true := by
  unfold readFraction at h
  split at h
  · split at h <;> cases h
    exact fun c hc => List.mem_takeWhile_imp hc
  · cases h

theorem of_readSign {cs : List Char} : ∀ c ∈ (Exponent.readSign cs).1, c = '+' ∨ c = '-' := by
  unfold Exponent.readSign
  split
  · split
    · next h => simpa using h
    · nofun
  · nofun

theorem of_readExponent {cs : List Char} {e : Exponent} (h : e ∈ (Exponent.read cs).1) :
    (e.mark = 'e' ∨ e.mark = 'E') ∧ (∀ c ∈ e.sign, c = '+' ∨ c = '-') ∧
      ∀ c ∈ e.digits, Digits.isDigit c = true := by
  unfold Exponent.read at h
  split at h
  · split at h
    · next hc =>
      cases h
      exact ⟨by simpa using hc, of_readSign, fun c hc => List.mem_takeWhile_imp hc⟩
    · cases h
  · cases h

/-- **What is read is proper.** -/
theorem proper_read (cs : List Char) : (read cs).1.Proper where
  whole _ hc := List.mem_takeWhile_imp hc
  fraction _ h := of_readFraction h
  mark _ h := (of_readExponent h).1
  sign _ h := (of_readExponent h).2.1
  power _ h := (of_readExponent h).2.2

theorem text_of_not_isFloat {n : Numeral} (h : n.isFloat = false) : n.text = n.whole := by
  obtain ⟨whole, fraction, exponent⟩ := n
  cases fraction <;> cases exponent <;> cases h
  exact List.append_nil whole

/-- **The text of a numeral shows whether it is a float.** -/
theorem Proper.isFloat_iff {n : Numeral} (h : n.Proper) :
    n.isFloat = true ↔ '.' ∈ n.text ∨ 'e' ∈ n.text ∨ 'E' ∈ n.text := by
  constructor
  · intro hf
    obtain ⟨whole, fraction, exponent⟩ := n
    cases fraction with
    | some ds => exact .inl (by simp [text, fractionText])
    | none =>
      cases exponent with
      | none => cases hf
      | some e =>
        refine .inr ((h.mark e rfl).imp ?_ ?_) <;>
          intro hm <;> simp [text, exponentText, Exponent.text, hm]
  · intro hm
    cases hf : n.isFloat with
    | true => rfl
    | false =>
      rw [text_of_not_isFloat hf] at hm
      rcases hm with hm | hm | hm <;> exact absurd (h.whole _ hm) (by decide)

/-! ### Reading a text of its own -/

/-- The first part of a text is all that a run takes if the next character ends the run. -/
theorem span_eq {p : Char → Bool} {w r : List Char} (hw : ∀ c ∈ w, p c = true)
    (hr : ∀ c ∈ r.head?, p c = false) : (w ++ r).takeWhile p = w ∧ (w ++ r).dropWhile p = r := by
  rw [List.takeWhile_append_of_pos hw, List.dropWhile_append_of_pos hw]
  cases r with
  | nil => simp
  | cons c r =>
    have hc := hr c rfl
    simp [hc]

variable {n : Numeral}

theorem isDigit_mark {c : Char} (h : c = 'e' ∨ c = 'E') : Digits.isDigit c = false := by
  rcases h with rfl | rfl <;> decide

theorem readSign_text {s : Option Char} {ds : List Char} (hs : ∀ c ∈ s, c = '+' ∨ c = '-')
    (hd : ∀ c ∈ ds, Digits.isDigit c = true) : Exponent.readSign (s.toList ++ ds) = (s, ds) := by
  cases s with
  | some c => simpa [Exponent.readSign, or_iff_not_imp_left] using hs c rfl
  | none =>
    cases ds with
    | nil => rfl
    | cons d ds =>
      have h : ∀ c, Digits.isDigit c = true → ¬ (c = '+' ∨ c = '-') := by
        rintro c hc (rfl | rfl) <;> exact absurd hc (by decide)
      simpa [Exponent.readSign] using h d (hd d (by simp))

theorem Proper.read_exponentText (h : n.Proper) :
    Exponent.read (exponentText n.exponent) = (n.exponent, []) := by
  cases he : n.exponent with
  | none => rfl
  | some e =>
    have hm : (e.mark = 'e' || e.mark = 'E') = true := by simpa using h.mark e he
    obtain ⟨ht, hd⟩ := span_eq (r := []) (h.power e he) (by simp)
    rw [List.append_nil] at ht hd
    simp only [exponentText, Exponent.text, Exponent.read, if_pos hm,
      readSign_text (h.sign e he) (h.power e he), ht, hd]

theorem Proper.head?_exponentText (h : n.Proper) :
    ∀ c ∈ (exponentText n.exponent).head?, c = 'e' ∨ c = 'E' := by
  cases he : n.exponent with
  | none => nofun
  | some e => simpa [exponentText, Exponent.text] using h.mark e he

theorem Proper.readFraction_text (h : n.Proper) :
    readFraction (fractionText n.fraction ++ exponentText n.exponent) =
      (n.fraction, exponentText n.exponent) := by
  have hx := h.head?_exponentText
  cases hf : n.fraction with
  | some ds =>
    obtain ⟨ht, hd⟩ := span_eq (h.fraction ds hf) fun c hc => isDigit_mark (hx c hc)
    simp only [fractionText, List.cons_append, readFraction, if_pos, ht, hd]
  | none =>
    cases he : exponentText n.exponent with
    | nil => rfl
    | cons c r =>
      have hc : c ≠ '.' := by
        rintro rfl
        exact absurd (hx '.' (by rw [he]; rfl)) (by decide)
      simp [fractionText, readFraction, hc]

/-- **A proper numeral is read from its text.** -/
theorem Proper.read_text (h : n.Proper) : read n.text = (n, []) := by
  have hr : ∀ c ∈ (fractionText n.fraction ++ exponentText n.exponent).head?,
      Digits.isDigit c = false := by
    intro c hc
    cases hf : n.fraction with
    | some ds =>
      rw [hf] at hc
      obtain rfl : '.' = c := Option.some.inj hc
      decide
    | none =>
      rw [hf] at hc
      exact isDigit_mark (h.head?_exponentText c hc)
  obtain ⟨ht, hd⟩ := span_eq h.whole hr
  simp only [read, text, ht, hd, h.readFraction_text, h.read_exponentText]

end Numeral

end SmallMl
