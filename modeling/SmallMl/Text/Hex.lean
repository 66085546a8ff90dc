/-!
# Hexadecimal digits

`Hex.digits w n` are the last `w` hexadecimal digits of `n`, in lower case and with leading zeros.
-/

namespace SmallMl.Hex

/-- The lower-case digit of a number below sixteen. -/
def digit (n : Nat) : Char := if n < 10 then Char.ofNat (48 + n) else Char.ofNat (87 + n)

/-- The last `w` hexadecimal digits of `n`. -/
def digits : Nat → Nat → List Char
  | 0, _ => []
  | w + 1, n => digits w (n / 16) ++ [digit (n % 16)]

@[simp] theorem length_digits : ∀ w n, (digits w n).length = w := by
  intro w
  induction w with
  | zero => intro n; rfl
  | succ w ih => intro n; simp [digits, ih]

end SmallMl.Hex
