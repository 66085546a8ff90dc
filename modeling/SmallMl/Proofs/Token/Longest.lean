import Mathlib.Computability.Language
import SmallMl.Proofs.Number.Numeral
import SmallMl.Proofs.Token.Cutting
import SmallMl.Proofs.Token.Matching

/-!
# Tokens are longest matches

Words, numerals and runs of operator characters are regular languages: `Lexeme.words`,
`Lexeme.numerals` and `Lexeme.operatorChar∗`.  They are described here without a reader.  What is
read of a text is the longest text of its language that stands at the front (`LongestIn`), although
the readers look one or two characters ahead and never go back:

* `Lexeme.longestIn_word`: a point belongs to a word only if a letter follows it;
* `Lexeme.longestIn_numeral`: every part of a numeral behind its first digit may be missing;
* `longestIn_takeWhile`: a run ends at the first character of another class.

`Stream.takes_longest` puts them together, with the token or the error that comes of each.
-/

open Computability

namespace SmallMl

/-! ### Regular languages -/

def oneOf (p : Char → Bool) : Language Char := {w | ∃ c, p c = true ∧ w = [c]}

theorem singleton_mem_oneOf {p : Char → Bool} {c : Char} (h : p c = true) : [c] ∈ oneOf p :=
  ⟨c, h, rfl⟩

theorem mem_kstar_oneOf {p : Char → Bool} {w : List Char} :
    w ∈ (oneOf p)∗ ↔ ∀ c ∈ w, p c = true := by
  constructor
  · rintro ⟨ws, rfl, hws⟩ c hc
    obtain ⟨v, hv, hcv⟩ := List.mem_flatten.1 hc
    obtain ⟨d, hd, rfl⟩ := hws v hv
    rw [List.mem_singleton.1 hcv]
    exact hd
  · intro h
    refine ⟨w.map fun c => [c], (List.flatMap_singleton' w).symm, ?_⟩
    intro v hv
    obtain ⟨c, hc, rfl⟩ := List.mem_map.1 hv
    exact singleton_mem_oneOf (h c hc)

/-- The text `w` is the longest one of the language at the front of `cs`. -/
structure LongestIn (l : Language Char) (cs w : List Char) : Prop where
  mem : w ∈ l
  isPrefix : w <+: cs
  length_le : ∀ v ∈ l, v <+: cs → v.length ≤ w.length

theorem LongestIn.unique {l : Language Char} {cs v w : List Char} (hv : LongestIn l cs v)
    (hw : LongestIn l cs w) : v = w := by
  have hl := hw.length_le v hv.mem hv.isPrefix
  have hp := List.prefix_of_prefix_length_le hv.isPrefix hw.isPrefix hl
  exact hp.eq_of_length_le (hv.length_le w hw.mem hw.isPrefix)

/-- **A run is the longest text of its characters.** -/
theorem longestIn_takeWhile (p : Char → Bool) (cs : List Char) :
    LongestIn (oneOf p)∗ cs (cs.takeWhile p) where
  mem := mem_kstar_oneOf.2 fun _ hc => List.mem_takeWhile_imp hc
  isPrefix := List.takeWhile_prefix p
  length_le := by
    rintro v hv ⟨r, rfl⟩
    rw [List.takeWhile_append_of_pos (mem_kstar_oneOf.1 hv), List.length_append]
    exact Nat.le_add_right _ _

/-- A reader that does not look at what it leaves, and leaves nothing of a text of the language,
takes the longest text of the language. -/
theorem longestIn_of_trims {α : Type} {f : List Char → α × List Char} (text : α → List Char)
    {l : Language Char} (ht : Trims f) (hx : ∀ cs, text (f cs).1 ++ (f cs).2 = cs)
    (hl : ∀ v ∈ l, (f v).2 = []) {cs : List Char} (hm : text (f cs).1 ∈ l) :
    LongestIn l cs (text (f cs).1) where
  mem := hm
  isPrefix := ⟨_, hx cs⟩
  length_le := by
    rintro v hv ⟨m, rfl⟩
    by_contra hlt
    -- something of `v` would be left, and the reader would leave it of `v` alone as well
    have hp : text (f (v ++ m)).1 <+: v :=
      List.prefix_of_prefix_length_le ⟨_, hx (v ++ m)⟩ (List.prefix_append v m) (by omega)
    obtain ⟨x, hxv⟩ := hp
    have hrest : (f (v ++ m)).2 = x ++ m := by
      apply List.append_cancel_left
      rw [hx, ← List.append_assoc, hxv]
    have hleft := hl v hv
    rw [ht v m x hrest] at hleft
    obtain rfl : x = [] := hleft
    rw [List.append_nil] at hxv
    exact hlt (by rw [hxv])

namespace Lexeme

def letter : Language Char := oneOf isLetter

def wordChar : Language Char := oneOf isWordChar

def digit : Language Char := oneOf Digits.isDigit

def operatorChar : Language Char := oneOf isOperatorChar

def point : Language Char := oneOf (· = '.')

def exponentMark : Language Char := oneOf fun c => c = 'e' || c = 'E'

def sign : Language Char := oneOf fun c => c = '+' || c = '-'

/-- A letter and word characters, and any number of such parts behind points. -/
def words : Language Char := letter * wordChar∗ * (point * letter * wordChar∗)∗

def fraction : Language Char := point * digit∗

def exponent : Language Char := exponentMark * (1 + sign) * digit∗

/-- Digits, then perhaps a fraction, then perhaps an exponent.  No digit but the first has to be
there. -/
def numerals : Language Char := digit * digit∗ * (1 + fraction) * (1 + exponent)

/-! ### Words -/

/-- The reader of words goes over the text as a whole, whatever stands behind it. -/
def GoesOver (v : List Char) : Prop :=
  ∀ r, splitWord (v ++ r) = (v ++ (splitWord r).1, (splitWord r).2)

theorem GoesOver.append {v w : List Char} (hv : GoesOver v) (hw : GoesOver w) :
    GoesOver (v ++ w) := by
  intro r
  rw [List.append_assoc, hv, hw, List.append_assoc]

theorem GoesOver.flatten : ∀ {ws : List (List Char)}, (∀ w ∈ ws, GoesOver w) →
    GoesOver ws.flatten := by
  intro ws
  induction ws with
  | nil => exact fun _ _ => rfl
  | cons w ws ih =>
    intro h
    obtain ⟨hw, hws⟩ := List.forall_mem_cons.1 h
    exact hw.append (ih hws)

theorem isWordChar_of_isLetter {c : Char} (h : isLetter c = true) : isWordChar c = true := by
  simp [isWordChar, h]

theorem goesOver_singleton {c : Char} (h : isWordChar c = true) : GoesOver [c] := by
  intro r
  rw [List.singleton_append, splitWord, h, Bool.true_or, if_pos rfl]
  rfl

theorem goesOver_part {w : List Char} (h : w ∈ letter * wordChar∗) : GoesOver w := by
  obtain ⟨_, ⟨c, hc, rfl⟩, _, ⟨ws, rfl, hws⟩, rfl⟩ := Language.mem_mul.1 h
  refine (goesOver_singleton (isWordChar_of_isLetter hc)).append (.flatten ?_)
  intro w hw
  obtain ⟨d, hd, rfl⟩ := hws w hw
  exact goesOver_singleton hd

theorem goesOver_point {w : List Char} (h : w ∈ point * (letter * wordChar∗)) : GoesOver w := by
  obtain ⟨_, ⟨d, hd, rfl⟩, w, hw, rfl⟩ := Language.mem_mul.1 h
  obtain rfl : d = '.' := of_decide_eq_true hd
  intro r
  have hsplit := goesOver_part hw r
  obtain ⟨_, ⟨c, hc, rfl⟩, cs, _, rfl⟩ := Language.mem_mul.1 hw
  have hl : startsWithLetter ([c] ++ cs ++ r) = true := hc
  rw [List.append_assoc, List.singleton_append, splitWord, hl, hsplit]
  rfl

/-- **The reader goes over every word as a whole.** -/
theorem goesOver_of_mem {v : List Char} (h : v ∈ words) : GoesOver v := by
  rw [words, mul_assoc point] at h
  obtain ⟨w, hw, _, ⟨ws, rfl, hws⟩, rfl⟩ := Language.mem_mul.1 h
  exact (goesOver_part hw).append (.flatten fun y hy => goesOver_point (hws y hy))

theorem append_mem_kstar {l : Language Char} {v w : List Char} (hv : v ∈ l) (hw : w ∈ l∗) :
    v ++ w ∈ l∗ :=
  Set.mem_of_mem_of_subset (Language.append_mem_mul hv hw) (mul_kstar_le_kstar (a := l))

/-- What is read is word characters and further parts, with a letter in front if the text starts
with one. -/
theorem splitWord_mem (cs : List Char) :
    (splitWord cs).1 ∈ wordChar∗ * (point * letter * wordChar∗)∗ ∧
      (startsWithLetter cs = true → (splitWord cs).1 ∈ words) := by
  have hnil : [] ∈ wordChar∗ * (point * letter * wordChar∗)∗ :=
    Language.append_mem_mul (Language.nil_mem_kstar _) (Language.nil_mem_kstar _)
  induction cs with
  | nil => exact ⟨hnil, nofun⟩
  | cons c r ih =>
    obtain ⟨hr, hl⟩ := ih
    rw [splitWord]
    split
    · next h =>
      cases hw : isWordChar c with
      | true =>
        obtain ⟨w, hwm, v, hv, hwv⟩ := Language.mem_mul.1 hr
        simp only [← hwv]
        constructor
        · have hcw : c :: w ∈ wordChar∗ := append_mem_kstar (singleton_mem_oneOf hw) hwm
          exact Language.append_mem_mul hcw hv
        · intro hc
          have hcw : c :: w ∈ letter * wordChar∗ :=
            Language.append_mem_mul (singleton_mem_oneOf hc) hwm
          exact Language.append_mem_mul hcw hv
      | false =>
        -- a point, and a letter behind it
        simp only [hw, Bool.false_or, Bool.and_eq_true, decide_eq_true_eq] at h
        obtain ⟨rfl, hs⟩ := h
        have hpoint : ['.'] ∈ point := singleton_mem_oneOf (by decide)
        obtain ⟨w, hwm, v, hv, hwv⟩ := Language.mem_mul.1 (hl hs)
        simp only [← hwv]
        constructor
        · have hpw := Language.append_mem_mul hpoint hwm
          rw [← mul_assoc] at hpw
          exact Language.append_mem_mul (Language.nil_mem_kstar _) (append_mem_kstar hpw hv)
        · intro hc
          cases hc
    · next h =>
      refine ⟨hnil, ?_⟩
      intro hc
      simp [isWordChar_of_isLetter hc] at h

/-- **A word is the longest one.** -/
theorem longestIn_word {c : Char} (h : isLetter c = true) (r : List Char) :
    LongestIn words (c :: r) (splitWord (c :: r)).1 := by
  refine longestIn_of_trims id splitWord_trims splitWord_append ?_ ((splitWord_mem (c :: r)).2 h)
  intro v hv
  have hgo := goesOver_of_mem hv []
  rw [List.append_nil] at hgo
  rw [hgo]
  rfl

/-! ### Numerals -/

section

variable {ds s e x : List Char}

theorem dropWhile_digits (h : ds ∈ digit∗) (hx : ∀ c ∈ x.head?, Digits.isDigit c = false) :
    (ds ++ x).dropWhile Digits.isDigit = x := by
  rw [List.dropWhile_append_of_pos (mem_kstar_oneOf.1 h)]
  cases x with
  | nil => rfl
  | cons c x => rw [List.dropWhile_cons_of_neg (by simp [hx c rfl])]

theorem readSign_of_mem (hs : s ∈ 1 + sign) (hd : ds ∈ digit∗) :
    (Exponent.readSign (s ++ ds)).2 = ds := by
  rcases hs with rfl | ⟨c, hc, rfl⟩
  · cases ds with
    | nil => rfl
    | cons d ds =>
      have hd := mem_kstar_oneOf.1 hd d (by simp)
      have hp : d ≠ '+' := by rintro rfl; cases hd
      have hm : d ≠ '-' := by rintro rfl; cases hd
      simp [Exponent.readSign, hp, hm]
  · simp only [List.singleton_append, Exponent.readSign]
    rw [if_pos hc]

theorem eq_nil_or_mark (he : e ∈ 1 + exponent) :
    e = [] ∨ ∃ c s ds, (c = 'e' || c = 'E') = true ∧ s ∈ 1 + sign ∧ ds ∈ digit∗ ∧
      e = c :: (s ++ ds) := by
  rcases he with rfl | he
  · exact .inl rfl
  · obtain ⟨_, ⟨_, ⟨c, hc, rfl⟩, s, hs, rfl⟩, ds, hds, rfl⟩ := Language.mem_mul.1 he
    exact .inr ⟨c, s, ds, hc, hs, hds, rfl⟩

theorem eq_nil_or_point (hx : x ∈ 1 + fraction) :
    x = [] ∨ ∃ ds, ds ∈ digit∗ ∧ x = '.' :: ds := by
  rcases hx with rfl | hx
  · exact .inl rfl
  · obtain ⟨_, ⟨d, hd, rfl⟩, ds, hds, rfl⟩ := Language.mem_mul.1 hx
    obtain rfl : d = '.' := of_decide_eq_true hd
    exact .inr ⟨ds, hds, rfl⟩

theorem head_of_exponent (he : e ∈ 1 + exponent) :
    ∀ c ∈ e.head?, Digits.isDigit c = false ∧ c ≠ '.' := by
  rcases eq_nil_or_mark he with rfl | ⟨c, s, ds, hc, -, -, rfl⟩
  · simp
  · simp only [Bool.or_eq_true, decide_eq_true_eq] at hc
    rcases hc with rfl | rfl <;> simp [Digits.isDigit]

theorem readExponent_of_mem (he : e ∈ 1 + exponent) : (Exponent.read e).2 = [] := by
  rcases eq_nil_or_mark he with rfl | ⟨c, s, ds, hc, hs, hds, rfl⟩
  · rfl
  · have hd := dropWhile_digits (x := []) hds nofun
    rw [List.append_nil] at hd
    simp only [Exponent.read, hc, if_true, readSign_of_mem hs hds, hd]

theorem readFraction_of_mem (hx : x ∈ 1 + fraction) (he : e ∈ 1 + exponent) :
    (Numeral.readFraction (x ++ e)).2 = e := by
  have hhead := head_of_exponent he
  rcases eq_nil_or_point hx with rfl | ⟨ds, hds, rfl⟩
  · cases e with
    | nil => rfl
    | cons c e =>
      have hc : c ≠ '.' := (hhead c rfl).2
      simp [Numeral.readFraction, hc]
  · exact dropWhile_digits hds fun c hc => (hhead c hc).1

/-- **The reader leaves nothing of a numeral.** -/
theorem readNumeral_of_mem {v : List Char} (h : v ∈ numerals) : (Numeral.read v).2 = [] := by
  obtain ⟨_, ⟨ds, hds, x, hx, rfl⟩, e, he, rfl⟩ := Language.mem_mul.1 h
  have hds : ds ∈ digit∗ := mul_kstar_le_kstar (a := digit) hds
  have hhead : ∀ c ∈ (x ++ e).head?, Digits.isDigit c = false := by
    rcases eq_nil_or_point hx with rfl | ⟨fs, -, rfl⟩
    · exact fun c hc => (head_of_exponent he c hc).1
    · simp [Digits.isDigit]
  have hdrop := dropWhile_digits hds hhead
  simp only [Numeral.read, List.append_assoc, hdrop, readFraction_of_mem hx he,
    readExponent_of_mem he]

end

theorem takeWhile_mem_digit (cs : List Char) : cs.takeWhile Digits.isDigit ∈ digit∗ :=
  (longestIn_takeWhile _ cs).mem

theorem fractionText_mem (cs : List Char) :
    Numeral.fractionText (Numeral.readFraction cs).1 ∈ 1 + fraction := by
  unfold Numeral.readFraction
  split
  · next c r =>
    split
    · refine .inr (Language.append_mem_mul ?_ (takeWhile_mem_digit r) : ['.'] ++ _ ∈ _)
      exact singleton_mem_oneOf (by decide)
    · exact .inl rfl
  · exact .inl rfl

theorem sign_mem (cs : List Char) : (Exponent.readSign cs).1.toList ∈ 1 + sign := by
  unfold Exponent.readSign
  split
  · next c r =>
    split
    · next hc => exact .inr (singleton_mem_oneOf hc)
    · exact .inl rfl
  · exact .inl rfl

theorem exponentText_mem (cs : List Char) :
    Numeral.exponentText (Exponent.read cs).1 ∈ 1 + exponent := by
  unfold Exponent.read
  split
  · next c r =>
    split
    · next hc =>
      have hm : [c] ∈ exponentMark := singleton_mem_oneOf hc
      have hms := Language.append_mem_mul hm (sign_mem r)
      have he := Language.append_mem_mul hms (takeWhile_mem_digit (Exponent.readSign r).2)
      rw [List.append_assoc] at he
      exact .inr he
    · exact .inl rfl
  · exact .inl rfl

theorem readNumeral_mem {c : Char} (h : Digits.isDigit c = true) (r : List Char) :
    (Numeral.read (c :: r)).1.text ∈ numerals := by
  have hw : (c :: r).takeWhile Digits.isDigit ∈ digit * digit∗ := by
    rw [List.takeWhile_cons_of_pos h]
    exact Language.append_mem_mul (singleton_mem_oneOf h) (takeWhile_mem_digit r)
  have hf := fractionText_mem ((c :: r).dropWhile Digits.isDigit)
  have he := exponentText_mem (Numeral.readFraction ((c :: r).dropWhile Digits.isDigit)).2
  have hn := Language.append_mem_mul (Language.append_mem_mul hw hf) he
  rw [List.append_assoc] at hn
  exact hn

/-- **A numeral is the longest one.** -/
theorem longestIn_numeral {c : Char} (h : Digits.isDigit c = true) (r : List Char) :
    LongestIn numerals (c :: r) (Numeral.read (c :: r)).1.text :=
  longestIn_of_trims Numeral.text Numeral.read_trims Numeral.text_append_read
    (fun _ => readNumeral_of_mem) (readNumeral_mem h r)

/-- What is found at a numeral: a float if its text has a point or an exponent. -/
theorem numeralKind_of_float {n : Numeral} (h : n.isFloat = true) :
    (∃ v, numeralKind n = .ok (.float v)) ∨ numeralKind n = .error (.invalidFloat n.text) := by
  rw [numeralKind, if_pos h]
  cases n.toFloat? with
  | some v => exact .inl ⟨v, rfl⟩
  | none => exact .inr rfl

theorem numeralKind_of_int {n : Numeral} (h : n.isFloat = false) :
    numeralKind n = if Digits.toNat n.text < Nat.pow 2 63 then .ok (.int (Digits.toNat n.text))
      else .error (.invalidInteger n.text) := by
  rw [numeralKind, if_neg (by simp [h]), Numeral.text_of_not_isFloat h]
  by_cases hv : Digits.toNat n.whole < Nat.pow 2 63
  · have hn : n.toInt? = some (Digits.toNat n.whole) := if_pos hv
    rw [hn, if_pos hv]
  · have hn : n.toInt? = none := if_neg hv
    rw [hn, if_neg hv]

/-! ### Operators -/

theorem of_isOperatorChar {c : Char} (h : isOperatorChar c = true) :
    isLetter c = false ∧ Digits.isDigit c = false := by
  simp only [isOperatorChar, Bool.or_eq_true, decide_eq_true_eq] at h
  rcases h with ((((((rfl | rfl) | rfl) | rfl) | rfl) | rfl) | rfl) <;> exact ⟨rfl, rfl⟩

/-- A run of operator characters with the point that may belong to it: one that stands behind a
single `+`, `-`, `*` or `/`. -/
def withPoint (run rest : List Char) : List Char :=
  if run ∈ [['+'], ['-'], ['*'], ['/']] ∧ rest.head? = some '.' then run ++ ['.'] else run

theorem takesPoint_iff {run : List Char} :
    takesPoint run = true ↔ run ∈ [['+'], ['-'], ['*'], ['/']] := by
  simp [takesPoint, or_assoc]

theorem splitOperator_fst (cs : List Char) :
    (splitOperator cs).1
      = withPoint (cs.takeWhile isOperatorChar) (cs.dropWhile isOperatorChar) := by
  simp only [splitOperator, withPoint, ← takesPoint_iff]
  cases cs.dropWhile isOperatorChar with
  | nil => simp
  | cons c r =>
    by_cases hc : c = '.'
    · cases takesPoint (cs.takeWhile isOperatorChar) <;> simp [hc]
    · simp [hc]

theorem operatorKind_spelling {o : Operator} (h : o ∈ Operator.symbols) :
    operatorKind o.spelling = .ok (.operator o) := by
  have hall : ∀ o ∈ Operator.symbols, operatorKind o.spelling = .ok (.operator o) := by decide
  exact hall o h

theorem operatorKind_of_ne {run : List Char} (ha : run ≠ ['-', '>']) (hl : run ≠ ['<', '-'])
    (ho : ∀ o ∈ Operator.symbols, run ≠ o.spelling) :
    operatorKind run = .error (.invalidOperator run) := by
  have hn : Operator.ofSymbols? run = none := by
    refine List.find?_eq_none.2 fun o hm => ?_
    simpa using (ho o hm).symm
  rw [operatorKind, if_neg ha, if_neg hl, hn]

theorem withPoint_of_ne {run rest : List Char}
    (ho : ∀ o ∈ Operator.symbols, withPoint run rest ≠ o.spelling) : withPoint run rest = run := by
  have hall : ∀ run ∈ [['+'], ['-'], ['*'], ['/']], ∃ o ∈ Operator.symbols,
      run ++ ['.'] = o.spelling := by decide
  unfold withPoint at ho ⊢
  split at ho
  · next h =>
    obtain ⟨o, hm, hs⟩ := hall run h.1
    exact absurd hs (ho o hm)
  · next h => rw [if_neg h]

end Lexeme

/-! ### The next lexeme -/

namespace Stream

open Lexeme

/-- The next call passes over the blanks and consumes exactly the characters `w`.  It gives what was
found: a token that covers them, or a fault as an error at their start. -/
def Takes (s : Stream) (w : List Char) (found : Except Fault Kind) : Prop :=
  ∃ rest, s.body = w ++ rest ∧ s.read.2 = s.past w rest ∧
    s.read.1 = match found with
      | .ok k => .ok ⟨k, ⟨s.here, s.here.after w⟩, w⟩
      | .error f => .error (f.toDiagnostic s.settings s.here)

theorem takes_lexeme {s : Stream} {c : Char} {r : List Char} (h : s.body = c :: r) {l : Lexeme}
    (hl : Lexeme.read c r = l) (hu : l.unclosed = false) : s.Takes l.text l.found := by
  subst hl
  refine ⟨(Lexeme.read c r).rest, by rw [h, text_append_rest], ?_, ?_⟩
  · rw [Stream.read, h]
    simp only [behind, hu, past]
    rfl
  · rw [Stream.read, h]
    rfl

theorem takes_word {s : Stream} {c : Char} {r : List Char} (h : s.body = c :: r)
    (hc : isLetter c = true) :
    s.Takes (splitWord s.body).1 (.ok (.ofWord (splitWord s.body).1)) := by
  rw [h]
  exact takes_lexeme (l := word (c :: r)) h (if_pos hc) rfl

theorem takes_numeral {s : Stream} {c : Char} {r : List Char} (h : s.body = c :: r)
    (hc : Digits.isDigit c = true) :
    s.Takes (Numeral.read s.body).1.text (numeralKind (Numeral.read s.body).1) := by
  rw [h]
  refine takes_lexeme (l := numeral (c :: r)) h ?_ rfl
  rw [Lexeme.read, if_neg (by simp [not_isLetter_of_isDigit hc]), if_pos hc]

theorem start_of_isDigit (settings : Settings) {c : Char} {r : List Char}
    (hc : Digits.isDigit c = true) :
    (ofText settings (c :: r)).body = c :: r ∧ (ofText settings (c :: r)).here = .start := by
  have hb : ¬isBlank c = true := fun hb =>
    Bool.false_ne_true ((isDigit_stop (isStop_of_isBlank hb)).symm.trans hc)
  rw [here, body, ofText, List.dropWhile_cons_of_neg hb, List.takeWhile_cons_of_neg hb]
  exact ⟨rfl, rfl⟩

/-- If a token takes all characters, the end token follows it. -/
theorem readAll_of_last {s : Stream} {t : Token} {w : List Char}
    (h : s.read = (.ok t, s.past w [])) (ht : t.isEof = false) :
    s.readAll = ([.ok t, .ok (endToken (s.here.after w))], s.past w []) := by
  have hmore : More s.read.1 := by
    rw [h]
    exact more_ok ht
  have heof : (s.past w []).read.1 = .ok (endToken (s.here.after w)) := rfl
  rw [readAll_of_more hmore, h, readAll_of_eof heof rfl]
  rfl

theorem takes_operator {s : Stream} {c : Char} {r : List Char} (h : s.body = c :: r)
    (hc : isOperatorChar c = true) :
    s.Takes (splitOperator s.body).1 (operatorKind (splitOperator s.body).1) := by
  rw [h]
  refine takes_lexeme (l := operator (c :: r)) h ?_ rfl
  obtain ⟨hl, hd⟩ := of_isOperatorChar hc
  rw [Lexeme.read, if_neg (by simp [hl]), if_neg (by simp [hd]), if_pos hc]

/-- **Tokens are longest matches.**  In front of a letter the next call takes the longest word, and
what it is the whole word tells.  In front of a digit it takes the longest numeral: a float if there
is a point or an exponent in it, and an integer otherwise; numbers that cannot be represented are
errors.  In front of an operator character it takes all such characters, and a point behind a single
`+`, `-`, `*` or `/`; what is no arrow and none of the operators is an error. -/
theorem takes_longest {s : Stream} {c : Char} {r : List Char} (h : s.body = c :: r) :
    (isLetter c = true → ∃ w, LongestIn words s.body w ∧ s.Takes w (.ok (.ofWord w))) ∧
    (Digits.isDigit c = true → ∃ w, LongestIn numerals s.body w ∧
      ('.' ∈ w ∨ 'e' ∈ w ∨ 'E' ∈ w →
        (∃ v, s.Takes w (.ok (.float v))) ∨ s.Takes w (.error (.invalidFloat w))) ∧
      (¬('.' ∈ w ∨ 'e' ∈ w ∨ 'E' ∈ w) →
        s.Takes w (if Digits.toNat w < Nat.pow 2 63 then .ok (.int (Digits.toNat w))
          else .error (.invalidInteger w)))) ∧
    (isOperatorChar c = true → ∃ run rest w, LongestIn operatorChar∗ s.body run ∧
      s.body = run ++ rest ∧ w = withPoint run rest ∧
      (w = ['-', '>'] → s.Takes w (.ok .arrow)) ∧
      (w = ['<', '-'] → s.Takes w (.ok .leftArrow)) ∧
      (∀ o ∈ Operator.symbols, w = o.spelling → s.Takes w (.ok (.operator o))) ∧
      (w ≠ ['-', '>'] → w ≠ ['<', '-'] → (∀ o ∈ Operator.symbols, w ≠ o.spelling) →
        w = run ∧ s.Takes run (.error (.invalidOperator run)))) := by
  refine ⟨fun hc => ?_, fun hc => ?_, fun hc => ?_⟩
  · exact ⟨_, h ▸ longestIn_word hc r, takes_word h hc⟩
  · have ht := takes_numeral h hc
    have hiff := (Numeral.proper_read s.body).isFloat_iff
    refine ⟨_, h ▸ longestIn_numeral hc r, fun hf => ?_, fun hi => ?_⟩
    · rcases numeralKind_of_float (hiff.2 hf) with ⟨v, hv⟩ | he
      · exact .inl ⟨v, hv ▸ ht⟩
      · exact .inr (he ▸ ht)
    · rw [numeralKind_of_int (Bool.eq_false_iff.2 (mt hiff.1 hi))] at ht
      exact ht
  · have ht := takes_operator h hc
    rw [splitOperator_fst] at ht
    refine ⟨_, _, _, longestIn_takeWhile _ _, List.takeWhile_append_dropWhile.symm, rfl,
      fun hw => ?_, fun hw => ?_, fun o ho hw => ?_, fun ha hl ho => ?_⟩
    · rw [hw] at ht ⊢
      exact ht
    · rw [hw] at ht ⊢
      exact ht
    · rw [hw, operatorKind_spelling ho] at ht
      rw [hw]
      exact ht
    · have hw := withPoint_of_ne ho
      rw [operatorKind_of_ne ha hl ho, hw] at ht
      exact ⟨hw, ht⟩

/-- A point that no letter follows, an exponent without digits and a point behind two characters. -/
theorem takes_longest_of_points :
    (ofText {} ['a', '.', 'b', '.', '(']).Takes ['a', '.', 'b'] (.ok .ident) ∧
      LongestIn numerals ['1', '.', 'e', '+', '('] ['1', '.', 'e', '+'] ∧
      (ofText {} ['-', '-', '.']).Takes ['-', '-'] (.error (.invalidOperator ['-', '-'])) := by
  refine ⟨?_, ?_, ?_⟩
  · obtain ⟨w, hw, ht⟩ := (takes_longest (s := ofText {} ['a', '.', 'b', '.', '(']) rfl).1 rfl
    obtain rfl : w = ['a', '.', 'b'] := hw.unique (longestIn_word rfl _)
    exact ht
  · obtain ⟨w, hw, -⟩ := (takes_longest (s := ofText {} ['1', '.', 'e', '+', '(']) rfl).2.1 rfl
    obtain rfl : w = ['1', '.', 'e', '+'] := hw.unique (longestIn_numeral rfl _)
    exact hw
  · obtain ⟨run, rest, w, hrun, hrest, rfl, -, -, -, he⟩ :=
      (takes_longest (s := ofText {} ['-', '-', '.']) rfl).2.2 rfl
    obtain rfl : run = ['-', '-'] := hrun.unique (longestIn_takeWhile _ _)
    obtain rfl : ['.'] = rest := (List.append_cancel_left_eq ['-', '-'] _ _).mp hrest
    exact (he (by decide) (by decide) (by decide)).2

end Stream

end SmallMl
