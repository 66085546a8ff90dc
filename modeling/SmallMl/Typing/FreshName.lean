import SmallMl.Number.Digits
import SmallMl.Typing.Store

/-!
# Fresh names

A `NameSupply` mints names that it has not minted before: it counts, and every name ends in its own
number.  A named variable is `stem.N`, a temporary of a type is `T`, the letter of the type and `N`.
A request that fails uses up no number.  The count is a 64-bit word, so the numbers start over with
zero when they run out.
-/

namespace SmallMl

/-- A source of fresh names; `count` is the number of the last name. -/
structure NameSupply where
  count : UInt64
  deriving DecidableEq

namespace NameSupply

def empty : NameSupply := ⟨0⟩

def succ (g : NameSupply) : NameSupply := ⟨g.count + 1⟩

/-- A fresh variable named after `stem`. -/
def named (g : NameSupply) (stem : List Char) : List Char × NameSupply :=
  (stem ++ '.' :: Digits.ofNat g.succ.count.toNat, g.succ)

/-- A fresh temporary for a value of the type `c`. -/
def temporary (g : NameSupply) (s : Store) (c : Cell) : Except Misuse (List Char × NameSupply) :=
  match s.letter c with
  | .ok l => .ok ('T' :: l :: Digits.ofNat g.succ.count.toNat, g.succ)
  | .error e => .error e

end NameSupply

end SmallMl
