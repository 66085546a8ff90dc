/-!
# Decimal digits

`Digits.ofNat` writes a number in decimal without leading zeros and `Digits.toNat` reads a digit
string, leading zeros allowed.  Reading undoes writing (`Digits.toNat_ofNat`), so distinct numbers
have distinct texts.
-/

namespace SmallMl.Digits

def isDigit (c : Char) : Bool := '0' ≤ c && c ≤ '9'

def char (d : Nat) : Char := Char.ofNat (48 + d)

def value (c : Char) : Nat := c.toNat - 48

/-- The decimal digits of `n`, the most significant first. -/
def ofNat (n : Nat) : List Char :=
  if n < 10 then [char n] else ofNat (n / 10) ++ [char (n % 10)]
termination_by n

def toNat (cs : List Char) : Nat := cs.foldl (fun n c => 10 * n + value c) 0

def text (n : Nat) : String := String.ofList (ofNat n)

def intText (n : Int) : String := if n < 0 then "-" ++ text n.natAbs else text n.natAbs

theorem value_char : ∀ d, d < 10 → value (char d) = d := by decide

theorem toNat_append_singleton (cs : List Char) (c : Char) :
    toNat (cs ++ [c]) = 10 * toNat cs + value c := by
  simp [toNat, List.foldl_append]

/-- **Reading undoes writing.** -/
theorem toNat_ofNat (n : Nat) : toNat (ofNat n) = n := by
  induction n using Nat.strongRecOn with
  | ind n ih =>
    rw [ofNat]
    split
    · next h => simp [toNat, value_char n h]
    · next h =>
      rw [toNat_append_singleton, ih (n / 10) (by omega), value_char (n % 10) (by omega)]
      omega

end SmallMl.Digits
