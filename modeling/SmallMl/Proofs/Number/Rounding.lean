import Mathlib.Algebra.Order.Field.Power
import Mathlib.Data.Int.Log
import Mathlib.Data.Rat.Floor
import Mathlib.Tactic.FieldSimp
import Mathlib.Tactic.Positivity
import Mathlib.Tactic.Ring
import SmallMl.Number.Binary64

/-!
# Rounding of fractions

A fraction is rounded by its value: `Binary64.ofRatio?` gives the same for `n / d` and `n' / d'` if
they are equal (`Binary64.ofRatio?_congr`).  A finite magnitude is its own rounding
(`Binary64.ofRatio?_num_den`).
-/

namespace SmallMl.Binary64

theorem zpow_eq_div (b : Nat) (hb : b ≠ 0) (e : Int) :
    (b : ℚ) ^ e = (b ^ e.toNat : Nat) / (b ^ (-e).toNat : Nat) := by
  have hb : (b : ℚ) ≠ 0 := Nat.cast_ne_zero.2 hb
  push_cast
  rw [eq_div_iff (by positivity), ← zpow_natCast, ← zpow_natCast, ← zpow_add₀ hb]
  congr 1
  omega

/-! ### The nearest integer -/

theorem roundDiv_mul {n d c : Nat} (hc : 0 < c) : roundDiv (n * c) (d * c) = roundDiv n d := by
  have hlt : 2 * (n % d * c) < d * c ↔ 2 * (n % d) < d := by
    rw [← Nat.mul_assoc, Nat.mul_lt_mul_right hc]
  have hgt : d * c < 2 * (n % d * c) ↔ d < 2 * (n % d) := by
    rw [← Nat.mul_assoc, Nat.mul_lt_mul_right hc]
  simp only [roundDiv, Nat.mul_div_mul_right _ _ hc, Nat.mul_mod_mul_right, hlt, hgt]

/-- **The nearest integer depends on the value of the fraction only.** -/
theorem roundDiv_congr {n d n' d' : Nat} (hd : 0 < d) (hd' : 0 < d') (h : (n : ℚ) / d = n' / d') :
    roundDiv n d = roundDiv n' d' := by
  have hm : n * d' = n' * d := by
    have hq : (d : ℚ) ≠ 0 := by positivity
    have hq' : (d' : ℚ) ≠ 0 := by positivity
    exact_mod_cast (div_eq_div_iff hq hq').1 h
  rw [← roundDiv_mul hd', ← roundDiv_mul (n := n') hd, hm, Nat.mul_comm d d']

@[simp] theorem roundDiv_one (n : Nat) : roundDiv n 1 = n := by
  simp [roundDiv, Nat.mod_one]

theorem roundDiv_eq_zero {n d : Nat} (hd : 0 < d) (h : (n : ℚ) / d < 1 / 2) : roundDiv n d = 0 := by
  rw [div_lt_div_iff₀ (Nat.cast_pos.2 hd) two_pos] at h
  have h2 : 2 * n < d := by
    rw [Nat.mul_comm]
    exact_mod_cast (one_mul (d : ℚ)) ▸ h
  have hlt : n < d := by omega
  simp only [roundDiv, Nat.div_eq_of_lt hlt, Nat.mod_eq_of_lt hlt, if_pos h2]

/-! ### The grid -/

/-- The quotient of two numbers lies between the powers of two that their sizes say. -/
theorem log2_bounds {n d : Nat} (hn : 0 < n) (hd : 0 < d) :
    (2 : ℚ) ^ ((n.log2 : Int) - d.log2 - 1) ≤ (n : ℚ) / d ∧
      (n : ℚ) / d < (2 : ℚ) ^ ((n.log2 : Int) - d.log2 + 1) := by
  have h2 : (2 : ℚ) ≠ 0 := two_ne_zero
  have hdq : (0 : ℚ) < d := Nat.cast_pos.2 hd
  have hnl : (2 : ℚ) ^ n.log2 ≤ n := mod_cast Nat.log2_self_le hn.ne'
  have hnu : (n : ℚ) < 2 ^ (n.log2 + 1) := mod_cast Nat.lt_log2_self
  have hdl : (2 : ℚ) ^ d.log2 ≤ d := mod_cast Nat.log2_self_le hd.ne'
  have hdu : (d : ℚ) < 2 ^ (d.log2 + 1) := mod_cast Nat.lt_log2_self
  constructor
  · rw [le_div_iff₀ hdq]
    calc (2 : ℚ) ^ ((n.log2 : Int) - d.log2 - 1) * d
        ≤ 2 ^ ((n.log2 : Int) - d.log2 - 1) * 2 ^ (d.log2 + 1) := by gcongr
      _ = 2 ^ n.log2 := by
        rw [← zpow_natCast, ← zpow_natCast, ← zpow_add₀ h2]
        congr 1
        omega
      _ ≤ n := hnl
  · rw [div_lt_iff₀ hdq]
    calc (n : ℚ) < 2 ^ (n.log2 + 1) := hnu
      _ = 2 ^ ((n.log2 : Int) - d.log2 + 1) * 2 ^ d.log2 := by
        rw [← zpow_natCast, ← zpow_natCast, ← zpow_add₀ h2]
        congr 1
        omega
      _ ≤ 2 ^ ((n.log2 : Int) - d.log2 + 1) * d := by gcongr

theorem floorLog2_eq_log {n d : Nat} (hn : 0 < n) (hd : 0 < d) :
    floorLog2 n d = Int.log 2 ((n : ℚ) / d) := by
  have hdq : (0 : ℚ) < d := Nat.cast_pos.2 hd
  have hq : (0 : ℚ) < n / d := div_pos (Nat.cast_pos.2 hn) hdq
  obtain ⟨hl, hu⟩ := log2_bounds hn hd
  have hle : ∀ e : Int, d * Nat.pow 2 e.toNat ≤ n * Nat.pow 2 (-e).toNat ↔
      e ≤ Int.log 2 ((n : ℚ) / d) := by
    intro e
    rw [← Int.zpow_le_iff_le_log one_lt_two hq, zpow_eq_div 2 two_ne_zero, div_le_div_iff₀
      (by positivity) hdq, mul_comm, Nat.pow_eq, Nat.pow_eq]
    exact_mod_cast Iff.rfl
  have hlow := (Int.zpow_le_iff_le_log one_lt_two hq).1 hl
  have hhigh := (Int.lt_zpow_iff_log_lt one_lt_two hq).1 hu
  unfold floorLog2
  simp only [hle]
  split <;> omega

/-- The power of two on whose multiples a value is rounded. -/
theorem grid_eq {n d : Nat} (hn : 0 < n) (hd : 0 < d) :
    grid n d = max (Int.log 2 ((n : ℚ) / d) - 52) (-1074) := by
  rw [grid, floorLog2_eq_log hn hd]

/-! ### Rounding -/

theorem scaled_eq (n d : Nat) (q : Int) :
    ((n * Nat.pow 2 (-q).toNat : Nat) : ℚ) / (d * Nat.pow 2 q.toNat : Nat) =
      (n : ℚ) / d / 2 ^ q := by
  have h := zpow_eq_div 2 two_ne_zero q
  rw [Nat.cast_ofNat] at h
  rw [h, Nat.pow_eq, Nat.pow_eq]
  push_cast
  field_simp

/-- **Rounding depends on the value of the fraction only.** -/
theorem ofRatio?_congr {n d n' d' : Nat} (hd : 0 < d) (hd' : 0 < d')
    (h : (n : ℚ) / d = n' / d') : ofRatio? n d = ofRatio? n' d' := by
  have hdq : (0 : ℚ) < d := Nat.cast_pos.2 hd
  have hdq' : (0 : ℚ) < d' := Nat.cast_pos.2 hd'
  by_cases hn : n = 0
  · have hn' : n' = 0 := by
      rw [hn, Nat.cast_zero, zero_div, eq_comm, div_eq_zero_iff] at h
      exact_mod_cast h.resolve_right hdq'.ne'
    rw [hn, hn', ofRatio?, ofRatio?, if_pos rfl, if_pos rfl]
  · have hn' : n' ≠ 0 := by
      rintro rfl
      rw [Nat.cast_zero, zero_div, div_eq_zero_iff] at h
      exact hn (mod_cast h.resolve_right hdq.ne')
    have hg : grid n d = grid n' d' := by
      rw [grid_eq (Nat.pos_of_ne_zero hn) hd, grid_eq (Nat.pos_of_ne_zero hn') hd', h]
    have hr : roundDiv (n * Nat.pow 2 (-grid n' d').toNat) (d * Nat.pow 2 (grid n' d').toNat) =
        roundDiv (n' * Nat.pow 2 (-grid n' d').toNat) (d' * Nat.pow 2 (grid n' d').toNat) := by
      refine roundDiv_congr ?_ ?_ (by rw [scaled_eq, scaled_eq, h]) <;>
        exact Nat.mul_pos (by assumption) (Nat.pow_pos two_pos)
    unfold ofRatio?
    rw [if_neg hn, if_neg hn']
    dsimp only
    rw [hg, hr]

/-- The grid of a magnitude is its own power of two. -/
theorem log_sub_eq {s : Nat} {p : Int} (hs : s ≠ 0) (hlt : s < 2 ^ 53) (hp : -1074 ≤ p)
    (hn : p = -1074 ∨ 2 ^ 52 ≤ s) : max (Int.log 2 ((s : ℚ) * 2 ^ p) - 52) (-1074) = p := by
  have hpos : (0 : ℚ) < s * 2 ^ p :=
    mul_pos (Nat.cast_pos.2 (Nat.pos_of_ne_zero hs)) (zpow_pos two_pos p)
  have hhigh : Int.log 2 ((s : ℚ) * 2 ^ p) < 53 + p := by
    rw [← Int.lt_zpow_iff_log_lt one_lt_two hpos, Nat.cast_ofNat, zpow_add₀ two_ne_zero]
    gcongr
    exact_mod_cast hlt
  rcases hn with hn | hn
  · omega
  · have hlow : 52 + p ≤ Int.log 2 ((s : ℚ) * 2 ^ p) := by
      rw [← Int.zpow_le_iff_le_log one_lt_two hpos, Nat.cast_ofNat, zpow_add₀ two_ne_zero]
      gcongr
      exact_mod_cast hn
    omega

/-- A fraction that is a magnitude is not changed by rounding. -/
theorem ofRatio?_of_magnitude {n d s : Nat} {p : Int} (hd : 0 < d) (hs : s ≠ 0)
    (hlt : s < 2 ^ 53) (hp : -1074 ≤ p) (hn : p = -1074 ∨ 2 ^ 52 ≤ s)
    (hw : (p + 1074).toNat * Nat.pow 2 52 + s < 2047 * Nat.pow 2 52)
    (h : (n : ℚ) / d = s * 2 ^ p) :
    ofRatio? n d = some ⟨((p + 1074).toNat * Nat.pow 2 52 + s).toUInt64⟩ := by
  have hn0 : n ≠ 0 := by
    rintro rfl
    rw [Nat.cast_zero, zero_div, eq_comm, mul_eq_zero] at h
    exact h.elim (fun h => hs (mod_cast h)) (zpow_ne_zero p two_ne_zero)
  have hg : grid n d = p := by
    rw [grid_eq (Nat.pos_of_ne_zero hn0) hd, h, log_sub_eq hs hlt hp hn]
  have hr : roundDiv (n * Nat.pow 2 (-p).toNat) (d * Nat.pow 2 p.toNat) = s := by
    have hq : ((n * Nat.pow 2 (-p).toNat : Nat) : ℚ) / (d * Nat.pow 2 p.toNat : Nat) =
        s / (1 : Nat) := by
      rw [scaled_eq, h, Nat.cast_one, div_one, mul_div_assoc, div_self (zpow_ne_zero p two_ne_zero),
        mul_one]
    exact (roundDiv_congr (Nat.mul_pos hd (Nat.pow_pos two_pos)) one_pos hq).trans (roundDiv_one s)
  unfold ofRatio?
  rw [if_neg hn0]
  dsimp only
  rw [hg, hr, if_pos hw]

/-- What rounds to a magnitude other than zero is neither too small nor too large. -/
theorem bounds_of_ofRatio? {n d : Nat} {v : Binary64} (hd : 0 < d) (h : ofRatio? n d = some v)
    (hv : v.magnitude ≠ 0) :
    (2 : ℚ) ^ (-1076 : Int) ≤ (n : ℚ) / d ∧ (n : ℚ) / d < (2 : ℚ) ^ (1025 : Int) := by
  unfold ofRatio? at h
  split at h
  · cases h
    exact absurd rfl hv
  next hn =>
  have hq : (0 : ℚ) < n / d := div_pos (Nat.cast_pos.2 (Nat.pos_of_ne_zero hn)) (Nat.cast_pos.2 hd)
  have hg := grid_eq (Nat.pos_of_ne_zero hn) hd
  dsimp only at h
  split at h <;> cases h
  next hw =>
  constructor
  · by_contra hlt
    have hlog := (Int.lt_zpow_iff_log_lt one_lt_two hq).1 (mod_cast lt_of_not_ge hlt)
    have hgrid : grid n d = -1074 := by omega
    -- the value is less than a quarter of the grid, so it is rounded down to zero
    refine hv ?_
    have hzero : roundDiv (n * Nat.pow 2 (- -1074 : Int).toNat) (d * Nat.pow 2 (-1074 : Int).toNat)
        = 0 := by
      refine roundDiv_eq_zero (Nat.mul_pos hd (Nat.pow_pos two_pos)) ?_
      rw [scaled_eq, div_lt_iff₀ (zpow_pos two_pos _)]
      calc (n : ℚ) / d < 2 ^ (-1076 : Int) := lt_of_not_ge hlt
        _ ≤ 2 ^ (-1074 - 1 : Int) := zpow_le_zpow_right₀ one_le_two (by decide)
        _ = 1 / 2 * 2 ^ (-1074 : Int) := by rw [zpow_sub_one₀ two_ne_zero, mul_comm, one_div]
    rw [hgrid, hzero]
    rfl
  · rw [← Nat.cast_ofNat, Int.lt_zpow_iff_log_lt one_lt_two hq]
    simp only [Nat.pow_eq] at hw
    omega

/-! ### Finite magnitudes -/

variable {v : Binary64}

theorem significand_lt (v : Binary64) : v.significand < 2 ^ 53 := by
  unfold significand
  split <;> simp only [Nat.pow_eq] at * <;> omega

theorem neg_1074_le_power (v : Binary64) : -1074 ≤ v.power := by
  unfold power
  split <;> simp only [Nat.pow_eq] at * <;> omega

theorem power_eq_or (v : Binary64) : v.power = -1074 ∨ 2 ^ 52 ≤ v.significand := by
  unfold power significand
  split
  · exact .inl rfl
  · exact .inr (Nat.le_add_left _ _)

theorem magnitude_eq (v : Binary64) :
    (v.power + 1074).toNat * Nat.pow 2 52 + v.significand = v.magnitude := by
  unfold power significand
  split <;> simp only [Nat.pow_eq] at * <;> omega

theorem significand_eq_zero_iff : v.significand = 0 ↔ v.magnitude = 0 := by
  unfold significand
  split
  · exact Iff.rfl
  · simp only [Nat.pow_eq] at *
    omega

theorem den_pos (v : Binary64) : 0 < v.den := Nat.pow_pos two_pos

theorem num_div_den (v : Binary64) : (v.num : ℚ) / v.den = v.significand * 2 ^ v.power := by
  have h := zpow_eq_div 2 two_ne_zero v.power
  rw [Nat.cast_ofNat] at h
  rw [h, num, den, Nat.pow_eq, Nat.pow_eq, Nat.cast_mul, mul_div_assoc]

/-- **A finite magnitude is its own rounding.** -/
theorem ofRatio?_num_den (hf : v.isFinite = true) :
    ofRatio? v.num v.den = some ⟨v.magnitude.toUInt64⟩ := by
  by_cases h0 : v.magnitude = 0
  · have hn : v.num = 0 := by rw [num, significand_eq_zero_iff.2 h0, Nat.zero_mul]
    rw [hn, h0, ofRatio?, if_pos rfl]
    rfl
  · have hm := magnitude_eq v
    rw [← hm]
    refine ofRatio?_of_magnitude v.den_pos (fun h => h0 (significand_eq_zero_iff.1 h))
      v.significand_lt v.neg_1074_le_power v.power_eq_or ?_ v.num_div_den
    rw [hm]
    exact of_decide_eq_true hf

theorem magnitude_magnitude (v : Binary64) :
    (⟨v.magnitude.toUInt64⟩ : Binary64).magnitude = v.magnitude := by
  have hlt : v.magnitude < Nat.pow 2 63 := Nat.mod_lt _ (Nat.pow_pos two_pos)
  have hw : v.magnitude.toUInt64.toNat = v.magnitude :=
    UInt64.toNat_ofNat_of_lt' (hlt.trans (by decide))
  rw [magnitude, hw, Nat.mod_eq_of_lt hlt]

theorem magnitude_toUInt64 (hn : v.isNegative = false) :
    (⟨v.magnitude.toUInt64⟩ : Binary64) = v := by
  have hlt : v.bits.toNat < Nat.pow 2 63 := Nat.lt_of_not_le (of_decide_eq_false hn)
  rw [magnitude, Nat.mod_eq_of_lt hlt]
  exact congrArg mk (UInt64.ofNat_toNat ..)

end SmallMl.Binary64
