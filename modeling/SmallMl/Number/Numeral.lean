import SmallMl.Number.Binary64
import SmallMl.Number.Digits

/-!
# Numerals

A numeral of the source text has a whole part, an optional fraction behind a point and an optional
exponent behind `e` or `E`; the fraction, the exponent's sign and even its digits may be empty.
`Numeral.read` takes the longest numeral at the front of a text, `Numeral.text` gives its characters
back, and nothing is lost in between (`Numeral.text_append_read`).

A numeral with neither point nor exponent denotes a natural number; any other denotes a float,
unless the exponent has no digits.  The float is the one nearest to the number as it is written,
with one exception.  The whole part has room for `wholeRoom` significant digits; when it has more,
and the first `headSize` digits do not settle the number, the digits without room do not move the
point.  So every numeral whose whole part fits is read exactly (`Numeral.toFloat?_of_length_le`).
-/

namespace SmallMl

structure Exponent where
  mark : Char
  sign : Option Char
  digits : List Char
  deriving DecidableEq

structure Numeral where
  whole : List Char
  fraction : Option (List Char)
  exponent : Option Exponent
  deriving DecidableEq

namespace Exponent

def text (e : Exponent) : List Char := e.mark :: (e.sign.toList ++ e.digits)

def readSign (cs : List Char) : Option Char × List Char :=
  match cs with
  | c :: r => if c = '+' || c = '-' then (some c, r) else (none, c :: r)
  | [] => (none, [])

def read (cs : List Char) : Option Exponent × List Char :=
  match cs with
  | c :: r =>
    if c = 'e' || c = 'E' then
      let (sign, r') := readSign r
      (some ⟨c, sign, r'.takeWhile Digits.isDigit⟩, r'.dropWhile Digits.isDigit)
    else (none, c :: r)
  | [] => (none, [])

/-- The size of an exponent.  Digits are no longer counted once five of them are significant: by
then the number is far outside the range of floats. -/
def size (e : Exponent) : Nat :=
  e.digits.foldl (fun n c => if n < 10000 then 10 * n + Digits.value c else n) 0

def value (e : Exponent) : Int := if e.sign = some '-' then -(e.size : Int) else e.size

end Exponent

namespace Numeral

def readFraction (cs : List Char) : Option (List Char) × List Char :=
  match cs with
  | c :: r =>
    if c = '.' then (some (r.takeWhile Digits.isDigit), r.dropWhile Digits.isDigit)
    else (none, c :: r)
  | [] => (none, [])

def read (cs : List Char) : Numeral × List Char :=
  let (fraction, r) := readFraction (cs.dropWhile Digits.isDigit)
  let (exponent, r') := Exponent.read r
  (⟨cs.takeWhile Digits.isDigit, fraction, exponent⟩, r')

def fractionText (f : Option (List Char)) : List Char :=
  match f with
  | some ds => '.' :: ds
  | none => []

def exponentText (e : Option Exponent) : List Char :=
  match e with
  | some e => e.text
  | none => []

def text (n : Numeral) : List Char :=
  n.whole ++ (fractionText n.fraction ++ exponentText n.exponent)

def isFloat (n : Numeral) : Bool := n.fraction.isSome || n.exponent.isSome

/-- The number of a numeral without point and exponent; it has to fit a signed 64-bit word. -/
def toInt? (n : Numeral) : Option Nat :=
  let v := Digits.toNat n.whole
  if v < Nat.pow 2 63 then some v else none

def fractionDigits (n : Numeral) : List Char := n.fraction.getD []

/-- The digits of a text from the first one on that is not a zero. -/
def significant (ds : List Char) : List Char := ds.dropWhile (· == '0')

/-- The number that the digits on both sides of the point denote when the point is left out. -/
def coefficient (n : Numeral) : Nat := Digits.toNat (n.whole ++ n.fractionDigits)

/-- The power of ten that the coefficient is written with; none when the exponent has no digits. -/
def power? (n : Numeral) : Option Int :=
  match n.exponent with
  | none => some (-(n.fractionDigits.length : Int))
  | some e => if e.digits.isEmpty then none else some (e.value - n.fractionDigits.length)

/-- The digits at the front of a numeral that are looked at first. -/
def headSize : Nat := 19

/-- The first `headSize` significant digits settle the number with the given power: either only
zeros follow them, or the least and the greatest number that start with them round to the same
float. -/
def isSettled (n : Numeral) (power : Int) : Bool :=
  let ds := significant (n.whole ++ n.fractionDigits)
  let head := Digits.toNat (ds.take headSize)
  let k := power + (ds.length - headSize : Nat)
  (ds.drop headSize).all (· == '0') ||
    Binary64.ofDecimal? head k = Binary64.ofDecimal? (head + 1) k

/-- The significant digits that the whole part has room for. -/
def wholeRoom : Nat := 800

/-- The significant digits of the whole part for which there is no room. -/
def surplus (n : Numeral) : Nat := (significant n.whole).length - wholeRoom

/-- The power of ten with which the number is rounded.  The point is taken to stand behind the last
digit of the whole part for which there is room, unless the number is settled before. -/
def place (n : Numeral) (power : Int) : Int :=
  if n.surplus = 0 || n.isSettled power then power else power - n.surplus

/-- The number of a float numeral; none when the exponent has no digits or the number is too
large. -/
def toFloat? (n : Numeral) : Option Binary64 :=
  n.power?.bind fun k => Binary64.ofDecimal? n.coefficient (n.place k)

theorem place_of_length_le {n : Numeral} (h : n.whole.length ≤ wholeRoom) (power : Int) :
    n.place power = power := by
  have hs : (significant n.whole).length ≤ n.whole.length := (List.dropWhile_suffix _).length_le
  have h0 : n.surplus = 0 := by
    unfold surplus
    omega
  simp [place, h0]

/-- **A numeral of ordinary length denotes the float nearest to it.** -/
theorem toFloat?_of_length_le {n : Numeral} (h : n.whole.length ≤ wholeRoom) :
    n.toFloat? = n.power?.bind fun k => Binary64.ofDecimal? n.coefficient k := by
  simp only [toFloat?, place_of_length_le h]

theorem sign_append_readSign (cs : List Char) :
    (Exponent.readSign cs).1.toList ++ (Exponent.readSign cs).2 = cs := by
  unfold Exponent.readSign
  split
  · split <;> simp
  · rfl

theorem exponentText_append_read (cs : List Char) :
    exponentText (Exponent.read cs).1 ++ (Exponent.read cs).2 = cs := by
  unfold Exponent.read
  split
  · next c r =>
    split
    · simp [exponentText, Exponent.text, List.takeWhile_append_dropWhile, sign_append_readSign]
    · simp [exponentText]
  · rfl

theorem fractionText_append_read (cs : List Char) :
    fractionText (readFraction cs).1 ++ (readFraction cs).2 = cs := by
  unfold readFraction
  split
  · next c r =>
    split
    · next h => simp [fractionText, h, List.takeWhile_append_dropWhile]
    · simp [fractionText]
  · rfl

/-- **Nothing is lost**: the numeral's characters and the rest make up the text. -/
theorem text_append_read (cs : List Char) : (read cs).1.text ++ (read cs).2 = cs := by
  simp only [read, text, List.append_assoc]
  rw [exponentText_append_read, fractionText_append_read, List.takeWhile_append_dropWhile]

end Numeral

end SmallMl
