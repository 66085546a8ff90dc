import SmallMl.Number.Digits

/-!
# Decimal digits

The digits of a number are digit characters, and there is at least one.  Zeros in front of a digit
string change nothing.
-/

namespace SmallMl.Digits

theorem isDigit_ofNat (n : Nat) : ∀ c ∈ ofNat n, isDigit c = true := by
  have hd : ∀ d, d < 10 → isDigit (char d) = true := by decide
  induction n using Nat.strongRecOn with
  | ind n ih =>
    rw [ofNat]
    split
    · next h =>
      intro c hc
      rw [List.mem_singleton.1 hc]
      exact hd n h
    · next h =>
      intro c hc
      rcases List.mem_append.1 hc with hc | hc
      · exact ih (n / 10) (by omega) c hc
      · rw [List.mem_singleton.1 hc]
        exact hd (n % 10) (by omega)

theorem ofNat_ne_nil (n : Nat) : ofNat n ≠ [] := by
  rw [ofNat]
  split <;> simp

theorem toNat_replicate_append (k : Nat) (cs : List Char) :
    toNat (List.replicate k '0' ++ cs) = toNat cs := by
  induction k with
  | zero => rfl
  | succ k ih => simpa [toNat, List.replicate_succ, value] using ih

end SmallMl.Digits
