/-!
# Binary floating-point numbers of 64 bits

A `Binary64` is the word that represents it: a sign bit, eleven bits of exponent and fifty-two bits
of fraction.  A finite magnitude is `significand · 2 ^ power` with a significand below `2 ^ 53` and
a power of at least `-1074`.

`Binary64.ofRatio?` rounds a nonnegative fraction to the nearest magnitude, a tie going to the even
significand, all in exact natural-number arithmetic.  The word of a rounded magnitude is
`(power + 1074) · 2 ^ 52 + significand` in all cases: below the normal range the first summand
vanishes, and a significand that is rounded up to `2 ^ 53` carries into the exponent by itself.
Magnitudes that round to `2 ^ 1024` or more are refused.
-/

namespace SmallMl

/-- A floating-point number, given by its word. -/
structure Binary64 where
  bits : UInt64
  deriving DecidableEq, Inhabited

namespace Binary64

def isNegative (v : Binary64) : Bool := Nat.pow 2 63 ≤ v.bits.toNat

def magnitude (v : Binary64) : Nat := v.bits.toNat % Nat.pow 2 63

def isFinite (v : Binary64) : Bool := v.magnitude < 2047 * Nat.pow 2 52

def isNaN (v : Binary64) : Bool := 2047 * Nat.pow 2 52 < v.magnitude

/-- The significand of a finite magnitude, with its hidden bit. -/
def significand (v : Binary64) : Nat :=
  if v.magnitude < Nat.pow 2 52 then v.magnitude else v.magnitude % Nat.pow 2 52 + Nat.pow 2 52

/-- The power of two that the significand of a finite magnitude is scaled by. -/
def power (v : Binary64) : Int :=
  if v.magnitude < Nat.pow 2 52 then -1074 else (v.magnitude / Nat.pow 2 52 : Nat) - 1075

def num (v : Binary64) : Nat := v.significand * Nat.pow 2 v.power.toNat

def den (v : Binary64) : Nat := Nat.pow 2 (-v.power).toNat

/-- The integer nearest to `n / d`; a tie goes to the even one. -/
def roundDiv (n d : Nat) : Nat :=
  let q := n / d
  let r := n % d
  if 2 * r < d then q
  else if d < 2 * r then q + 1
  else if q % 2 = 0 then q else q + 1

/-- The greatest `e` with `2 ^ e ≤ n / d`, for positive `n` and `d`. -/
def floorLog2 (n d : Nat) : Int :=
  let e : Int := (n.log2 : Int) - d.log2
  if d * Nat.pow 2 e.toNat ≤ n * Nat.pow 2 (-e).toNat then e else e - 1

/-- The power of two on whose multiples the fraction `n / d` is rounded. -/
def grid (n d : Nat) : Int := max (floorLog2 n d - 52) (-1074)

/-- The fraction `n / d` rounded to a nonnegative number; none when it is too large. -/
def ofRatio? (n d : Nat) : Option Binary64 :=
  if n = 0 then some ⟨0⟩
  else
    let q := grid n d
    let m := roundDiv (n * Nat.pow 2 (-q).toNat) (d * Nat.pow 2 q.toNat)
    let word := (q + 1074).toNat * Nat.pow 2 52 + m
    if word < 2047 * Nat.pow 2 52 then some ⟨word.toUInt64⟩ else none

/-- The decimal fraction `c · 10 ^ k` rounded to a nonnegative number. -/
def ofDecimal? (c : Nat) (k : Int) : Option Binary64 :=
  ofRatio? (c * Nat.pow 10 k.toNat) (Nat.pow 10 (-k).toNat)

end Binary64

end SmallMl
