import SmallMl.Number.Binary64
import SmallMl.Number.Digits

/-!
# Shortest decimals

A finite magnitude is written with the fewest digits that read back as the same number.  For each
number of digits there are two candidates, the multiples of the digit grid next to the value on
either side; if any decimal of that length reads back, one of these two does.  The first length with
a candidate that reads back is taken, and of two such candidates the nearer one; if they are equally
near, the even one.

Seventeen digits always suffice; behind them stands the exact decimal expansion, which reads back
because it is the value itself.
-/

namespace SmallMl

structure Decimal where
  coefficient : Nat
  power : Int
  deriving DecidableEq

namespace Decimal

def toBinary64? (d : Decimal) : Option Binary64 := Binary64.ofDecimal? d.coefficient d.power

/-- The greatest multiple of the grid `10 ^ k` that is at most the magnitude of `v`, in units of the
grid. -/
def floor (v : Binary64) (k : Int) : Nat :=
  v.num * Nat.pow 10 (-k).toNat / (v.den * Nat.pow 10 k.toNat)

/-- The position of the first decimal digit: the greatest `x` with `10 ^ x` at most the magnitude.
Every nonzero magnitude is at least `10 ^ (-324)`. -/
def leading (v : Binary64) : Int :=
  ((Digits.ofNat (v.num * Nat.pow 10 324 / v.den)).length : Int) - 325

/-- The lower of the two multiples next to the value is the nearer one, or as near as the upper one
and even. -/
def lowerIsNearer (v : Binary64) (k : Int) : Bool :=
  let unit := v.den * Nat.pow 10 k.toNat
  let twice := 2 * (v.num * Nat.pow 10 (-k).toNat % unit)
  twice < unit || (twice = unit && floor v k % 2 = 0)

/-- The nearest decimal on the grid `10 ^ k` that reads back as the magnitude of `v`, if there is
one. -/
def onGrid? (v : Binary64) (k : Int) : Option Decimal :=
  let lower : Decimal := ⟨floor v k, k⟩
  let upper : Decimal := ⟨floor v k + 1, k⟩
  let same (d : Decimal) : Bool := d.toBinary64? = some ⟨v.magnitude.toUInt64⟩
  match same lower, same upper with
  | true, true => some (if lowerIsNearer v k then lower else upper)
  | true, false => some lower
  | false, true => some upper
  | false, false => none

def exact (v : Binary64) : Decimal :=
  if 0 ≤ v.power then ⟨v.num, 0⟩ else ⟨v.significand * Nat.pow 5 (-v.power).toNat, v.power⟩

def shortest (v : Binary64) : Decimal :=
  ((List.range 17).findSome? fun n : Nat => onGrid? v (leading v - (n : Int))).getD (exact v)

/-- The digits without the zeros at their end, and the position of the first digit. -/
def scientific (d : Decimal) : List Char × Int :=
  let cs := Digits.ofNat d.coefficient
  let kept := (cs.reverse.dropWhile (· == '0')).reverse
  if kept.isEmpty then (['0'], 0) else (kept, d.power + cs.length - 1)

end Decimal

end SmallMl
