import Mathlib.Data.Nat.Digits.Defs
import SmallMl.Proofs.Number.Digits
import SmallMl.Proofs.Token.Longest

/-!
# Integer literals

A run of digits that no point and no exponent follows is an integer literal of any length.  Its
value is the place value of its digits (`Digits.placeValue`), so zeros in front do not count, and it
is a token exactly if the value fits a signed 64-bit word.  Otherwise it is an error, and reading
goes on behind the digits all the same.

* `Digits.toNat_eq_placeValue`: the digits are added up from the left to their place value.
* `Digits.placeValue_withZeros`: the decimal text of a number has the number as its place value.
* `Stream.read_integer`, `Stream.readAll_digits`: one call in front of digits, and all calls on the
  text of a number.
-/

namespace SmallMl

namespace Digits

/-- The sum of the digits, each times the power of ten of its place. -/
def placeValue (ds : List Char) : Nat := Nat.ofDigits 10 (ds.reverse.map value)

theorem placeValue_append_singleton (ds : List Char) (c : Char) :
    placeValue (ds ++ [c]) = 10 * placeValue ds + value c := by
  simp only [placeValue, List.reverse_append, List.reverse_singleton, List.singleton_append,
    List.map_cons, Nat.ofDigits_cons]
  exact Nat.add_comm _ _

/-- **Adding up digits from the left gives their place value.** -/
theorem toNat_eq_placeValue (ds : List Char) : toNat ds = placeValue ds := by
  induction ds using List.reverseRecOn with
  | nil => rfl
  | append_singleton ds c ih =>
    rw [toNat_append_singleton, placeValue_append_singleton, ih]

theorem digitChar_eq : ∀ d, d < 10 → Nat.digitChar d = char d := by decide

theorem ofNat_eq_toList (n : Nat) : ofNat n = (toString n).toList := by
  rw [Nat.toString_eq_repr, Nat.toList_repr]
  induction n using Nat.strongRecOn with
  | ind n ih =>
    rw [ofNat]
    split
    · next h => rw [Nat.toDigits_of_lt_base h, digitChar_eq n h]
    · next h =>
      rw [Nat.toDigits_of_base_le (by decide) (by omega), ih (n / 10) (by omega),
        digitChar_eq (n % 10) (by omega)]

def withZeros (k n : Nat) : List Char := List.replicate k '0' ++ (toString n).toList

theorem isDigit_withZeros (k n : Nat) : ∀ c ∈ withZeros k n, isDigit c = true := by
  intro c hc
  rw [withZeros, ← ofNat_eq_toList] at hc
  rcases List.mem_append.1 hc with hc | hc
  · rw [List.eq_of_mem_replicate hc]
    decide
  · exact isDigit_ofNat n c hc

theorem withZeros_ne_nil (k n : Nat) : withZeros k n ≠ [] := by
  rw [withZeros, ← ofNat_eq_toList]
  simp [ofNat_ne_nil]

/-- **The decimal text of a number has the number as its place value.** -/
theorem placeValue_withZeros (k n : Nat) : placeValue (withZeros k n) = n := by
  rw [← toNat_eq_placeValue, withZeros, ← ofNat_eq_toList, toNat_replicate_append, toNat_ofNat]

end Digits

/-- No digit, no point and no exponent stands at the front of the text. -/
def EndsInteger (rest : List Char) : Prop :=
  ∀ c ∈ rest.head?, Digits.isDigit c = false ∧ c ≠ '.' ∧ c ≠ 'e' ∧ c ≠ 'E'

instance : DecidablePred EndsInteger
  | [] => isTrue (by simp [EndsInteger])
  | c :: r => decidable_of_iff (Digits.isDigit c = false ∧ c ≠ '.' ∧ c ≠ 'e' ∧ c ≠ 'E')
      (by simp [EndsInteger])

/-- **All digits are taken and nothing else.** -/
theorem Numeral.read_digits {ds rest : List Char} (hd : ∀ c ∈ ds, Digits.isDigit c = true)
    (hr : EndsInteger rest) : Numeral.read (ds ++ rest) = (⟨ds, none, none⟩, rest) := by
  obtain ⟨htake, hdrop⟩ := span_eq hd fun c hc => (hr c hc).1
  have hfrac : readFraction rest = (none, rest) := by
    cases rest with
    | nil => rfl
    | cons c r => simp [readFraction, (hr c rfl).2.1]
  have hexp : Exponent.read rest = (none, rest) := by
    cases rest with
    | nil => rfl
    | cons c r => simp [Exponent.read, (hr c rfl).2.2.1, (hr c rfl).2.2.2]
  simp only [Numeral.read, htake, hdrop, hfrac, hexp]

namespace Stream

/-- What the digits `ds` are at the next lexeme: a token with their value, if it fits. -/
def integer (s : Stream) (ds : List Char) : Except Diagnostic Token :=
  if Digits.placeValue ds ≤ 2 ^ 63 - 1 then
    .ok ⟨.int (Digits.placeValue ds), ⟨s.here, s.here.after ds⟩, ds⟩
  else
    .error ⟨s.here, "invalid integer literal '" ++ String.ofList ds ++ "'", .error, .lexer,
      s.settings.filename, false⟩

/-- **A call in front of digits takes all of them**, whether their value fits or not. -/
theorem read_integer {s : Stream} {ds rest : List Char} (hb : s.body = ds ++ rest) (hn : ds ≠ [])
    (hd : ∀ c ∈ ds, Digits.isDigit c = true) (hr : EndsInteger rest) :
    s.read = (s.integer ds, s.past ds rest) := by
  obtain ⟨c, ds', rfl⟩ := List.exists_cons_of_ne_nil hn
  have hread := Numeral.read_digits hd hr
  have ht := takes_numeral (r := ds' ++ rest) hb (hd c (by simp))
  rw [hb, hread, Lexeme.numeralKind_of_int rfl, Numeral.text_of_not_isFloat rfl,
    Digits.toNat_eq_placeValue] at ht
  obtain ⟨rest', hb', hs, hres⟩ := ht
  obtain rfl : rest = rest' := List.append_cancel_left (hb.symm.trans hb')
  refine Prod.ext ?_ hs
  rw [hres, integer]
  -- the bound is written in two ways
  have hmax : Digits.placeValue (c :: ds') < Nat.pow 2 63 ↔
      Digits.placeValue (c :: ds') ≤ 2 ^ 63 - 1 := by
    rw [show Nat.pow 2 63 = 2 ^ 63 from rfl]
    omega
  by_cases hv : Digits.placeValue (c :: ds') ≤ 2 ^ 63 - 1
  · rw [if_pos hv, if_pos (hmax.2 hv)]
  · rw [if_neg hv, if_neg (mt hmax.1 hv)]
    simp [Fault.toDiagnostic, Fault.message, String.join]

theorem integer_of_le {s : Stream} {ds : List Char} (h : Digits.placeValue ds ≤ 2 ^ 63 - 1) :
    s.integer ds = .ok ⟨.int (Digits.placeValue ds), ⟨s.here, s.here.after ds⟩, ds⟩ := if_pos h

theorem readAll_digits (settings : Settings) {ds : List Char} (hn : ds ≠ [])
    (hd : ∀ c ∈ ds, Digits.isDigit c = true) (hv : Digits.placeValue ds ≤ 2 ^ 63 - 1) :
    (ofText settings ds).readAll.1 =
      [.ok ⟨.int (Digits.placeValue ds), ⟨.start, Location.start.after ds⟩, ds⟩,
        .ok (endToken (Location.start.after ds))] := by
  obtain ⟨c, ds', rfl⟩ := List.exists_cons_of_ne_nil hn
  obtain ⟨hbody, hhere⟩ := start_of_isDigit settings (r := ds') (hd c (by simp))
  have hr := read_integer (hbody.trans (List.append_nil _).symm) hn hd (by simp [EndsInteger])
  rw [integer_of_le hv, hhere] at hr
  rw [readAll_of_last hr rfl, hhere]

/-- **Integer literals are exact up to the limit.**  In front of a run of digits, however many zeros
it starts with, the next call takes exactly the run, if no digit, no point and no exponent follows.
It gives a token with the place value of the digits if the value is at most `2 ^ 63 - 1`, and an
error at the first digit otherwise; the stream is behind the digits in both cases.  So every number
up to the limit is read back from its decimal text. -/
theorem integer_exact :
    (∀ (s : Stream) (ds rest : List Char), s.body = ds ++ rest → ds ≠ [] →
      (∀ c ∈ ds, Digits.isDigit c = true) → EndsInteger rest →
      s.read = (s.integer ds, s.past ds rest)) ∧
    ∀ (settings : Settings) (k n : Nat), n ≤ 2 ^ 63 - 1 →
      (ofText settings (Digits.withZeros k n)).readAll.1 =
        [.ok ⟨.int n, ⟨.start, Location.start.after (Digits.withZeros k n)⟩,
            Digits.withZeros k n⟩,
          .ok (endToken (Location.start.after (Digits.withZeros k n)))] := by
  refine ⟨fun s ds rest => read_integer, fun settings k n hn => ?_⟩
  have hv := Digits.placeValue_withZeros k n
  have h := readAll_digits settings (Digits.withZeros_ne_nil k n) (Digits.isDigit_withZeros k n)
    (by rwa [hv])
  rwa [hv] at h

/-- The greatest number that fits with a zero in front, the next one, and the greatest number as the
whole text. -/
theorem integer_exact_at_limit :
    (ofText {} "09223372036854775807;".toList).read.1
        = .ok ⟨.int 9223372036854775807, ⟨.start, ⟨1, 21, 20⟩⟩, "09223372036854775807".toList⟩ ∧
      (ofText {} " 9223372036854775808x".toList).read.1
        = .error ⟨⟨1, 2, 1⟩, "invalid integer literal '9223372036854775808'", .error, .lexer, "",
            false⟩ ∧
      (ofText {} " 9223372036854775808x".toList).read.2.rest = ['x'] ∧
      (ofText {} "9223372036854775807".toList).readAll.1
        = [.ok ⟨.int 9223372036854775807, ⟨.start, ⟨1, 20, 19⟩⟩, "9223372036854775807".toList⟩,
            .ok (endToken ⟨1, 20, 19⟩)] := by
  obtain ⟨hread, hall⟩ := integer_exact
  have hok := hread (ofText {} "09223372036854775807;".toList) "09223372036854775807".toList [';']
    rfl (by decide) (List.all_eq_true.1 rfl) (by decide)
  have herr := hread (ofText {} " 9223372036854775808x".toList) "9223372036854775808".toList ['x']
    rfl (by decide) (List.all_eq_true.1 rfl) (by decide)
  refine ⟨?_, ?_, ?_, ?_⟩
  · rw [hok]
    decide +kernel
  · rw [herr]
    decide +kernel
  · rw [herr]
    rfl
  · exact hall {} 0 9223372036854775807 (by decide)

end Stream

end SmallMl
