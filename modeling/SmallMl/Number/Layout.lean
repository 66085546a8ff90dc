import SmallMl.Number.Shortest

/-!
# Layouts of floating-point numbers

A layout says which numbers are written positionally and how the exponent of the others looks.  The
digits are the shortest ones in either case.

* `Layout.source`: the layout of the program's own listings.  With the point appended to texts that
  would otherwise read as integers (`Binary64.sourceText`), every finite nonnegative number is a
  float literal of the language.
* `Layout.json`: the layout of JSON numbers.
-/

namespace SmallMl

structure Layout where
  /-- The least position of the first digit that is written positionally. -/
  low : Int
  /-- The first position of the first digit, from `low` on, that needs an exponent. -/
  high : Int
  /-- The least number of exponent digits. -/
  exponentWidth : Nat

namespace Layout

/-- Positional from `0.0001` up to, and without, a million; the exponent has two digits. -/
def source : Layout := ⟨-4, 6, 2⟩

/-- Positional from `10 ^ (-6)` up to, and without, `10 ^ 21`; the exponent is not padded. -/
def json : Layout := ⟨-6, 21, 1⟩

/-- The digits `cs` written out, the first of them at position `x`. -/
def positional (cs : List Char) (x : Int) : List Char :=
  if x < 0 then '0' :: '.' :: (List.replicate (-x - 1).toNat '0' ++ cs)
  else
    let whole := x.toNat + 1
    if cs.length ≤ whole then cs ++ List.replicate (whole - cs.length) '0'
    else cs.take whole ++ '.' :: cs.drop whole

def exponent (width : Nat) (x : Int) : List Char :=
  let cs := Digits.ofNat x.natAbs
  'e' :: (if x < 0 then '-' else '+') :: (List.replicate (width - cs.length) '0' ++ cs)

/-- The digits `cs` with a point behind the first one and the exponent `x`. -/
def withExponent (width : Nat) (cs : List Char) (x : Int) : List Char :=
  match cs with
  | [] => []
  | [c] => c :: exponent width x
  | c :: r => c :: '.' :: (r ++ exponent width x)

def magnitude (l : Layout) (v : Binary64) : List Char :=
  let s := (Decimal.shortest v).scientific
  if v.magnitude = 0 then ['0']
  else if l.low ≤ s.2 ∧ s.2 < l.high then positional s.1 s.2
  else withExponent l.exponentWidth s.1 s.2

def write (l : Layout) (v : Binary64) : List Char :=
  if v.isNegative then '-' :: l.magnitude v else l.magnitude v

end Layout

namespace Binary64

def specialName (v : Binary64) : String :=
  if v.isNaN then "NaN" else if v.isNegative then "-Inf" else "+Inf"

/-- The characters of which one marks a text as the text of a float. -/
def isFloatMark (c : Char) : Bool := c = '.' || c = 'e' || c = 'E' || c = 'n'

/-- The number as listings show it: with a point at the end if nothing else tells it from an
integer. -/
def sourceText (v : Binary64) : String :=
  let cs := if v.isFinite then Layout.source.write v else v.specialName.toList
  String.ofList (if cs.any isFloatMark then cs else cs ++ ['.'])

end Binary64

end SmallMl
