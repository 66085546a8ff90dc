import SmallMl.Number.Layout
import SmallMl.Proofs.Number.Digits
import SmallMl.Proofs.Number.Numeral
import SmallMl.Proofs.Number.Rounding

/-!
# Numbers read back

A finite number is shown with the shortest digits that read back as the number.

* `Decimal.toBinary64?_shortest`: the decimal that is shown reads back, whichever of the candidates
  it is.
* `Decimal.value_scientific`: its digits without the zeros at the end, and the position of the first
  of them, make up the same value.
* `Layout.exists_positional`, `Layout.exists_withExponent`: the digits written out, with a point at
  the end if there is no other mark of a float, are the text of a numeral of that value.

A numeral denotes the number that its value rounds to, so a finite number without sign is shown as a
float numeral that denotes it (`Binary64.exists_numeral`), and different numbers are shown
differently (`Binary64.sourceText_injective`).
-/

namespace SmallMl

open Binary64 (zpow_eq_div)

/-! ### Digits -/

namespace Digits

theorem lt_pow_length (n : Nat) : n < 10 ^ (ofNat n).length := by
  induction n using Nat.strongRecOn with
  | ind n ih =>
    rw [ofNat]
    split
    · next h => simpa using h
    · next h =>
      have := ih (n / 10) (by omega)
      rw [List.length_append, List.length_singleton, Nat.pow_succ]
      omega

theorem pow_le_of_ne_zero (n : Nat) (hn : n ≠ 0) : 10 ^ ((ofNat n).length - 1) ≤ n := by
  induction n using Nat.strongRecOn with
  | ind n ih =>
    rw [ofNat]
    split
    · exact Nat.pos_of_ne_zero hn
    · next h =>
      obtain ⟨k, hk⟩ := Nat.exists_eq_add_one.2 (List.length_pos_iff.2 (ofNat_ne_nil (n / 10)))
      have := ih (n / 10) (by omega) (by omega)
      rw [hk, Nat.add_sub_cancel] at this
      rw [List.length_append, List.length_singleton, Nat.add_sub_cancel, hk, Nat.pow_succ]
      omega

theorem toNat_append_replicate (cs : List Char) (k : Nat) :
    toNat (cs ++ List.replicate k '0') = toNat cs * 10 ^ k := by
  induction k with
  | zero => simp
  | succ k ih =>
    have h0 : value '0' = 0 := rfl
    rw [List.replicate_succ', ← List.append_assoc, toNat_append_singleton, ih, h0, Nat.add_zero,
      Nat.pow_succ, Nat.mul_left_comm, Nat.mul_comm 10]

end Digits

namespace Binary64

theorem decimal_eq (c : Nat) (k : Int) :
    ((c * Nat.pow 10 k.toNat : Nat) : ℚ) / (Nat.pow 10 (-k).toNat : Nat) = c * 10 ^ k := by
  have h := zpow_eq_div 10 (by decide) k
  rw [Nat.cast_ofNat] at h
  rw [h, Nat.pow_eq, Nat.pow_eq, Nat.cast_mul, mul_div_assoc]

theorem ofDecimal?_eq {c n d : Nat} {k : Int} (hd : 0 < d) (h : (c : ℚ) * 10 ^ k = n / d) :
    ofDecimal? c k = ofRatio? n d :=
  ofRatio?_congr (Nat.pow_pos (by decide)) hd ((decimal_eq c k).trans h)

/-- **The number that a decimal reads back as depends on its value only.** -/
theorem ofDecimal?_congr {c c' : Nat} {k k' : Int} (h : (c : ℚ) * 10 ^ k = c' * 10 ^ k') :
    ofDecimal? c k = ofDecimal? c' k' :=
  ofDecimal?_eq (Nat.pow_pos (by decide)) (h.trans (decimal_eq c' k').symm)

theorem bounds_of_ofDecimal? {c : Nat} {k : Int} {v : Binary64} (h : ofDecimal? c k = some v)
    (hv : v.magnitude ≠ 0) :
    (2 : ℚ) ^ (-1076 : Int) ≤ c * 10 ^ k ∧ (c : ℚ) * 10 ^ k < (2 : ℚ) ^ (1025 : Int) :=
  decimal_eq c k ▸ bounds_of_ofRatio? (Nat.pow_pos (by decide)) h hv

end Binary64

namespace Decimal

def value (d : Decimal) : ℚ := d.coefficient * 10 ^ d.power

variable {v : Binary64}

theorem value_exact (v : Binary64) : (exact v).value = (v.num : ℚ) / v.den := by
  rw [v.num_div_den, exact]
  split
  · next h =>
    obtain ⟨p, hp⟩ := Int.eq_ofNat_of_zero_le h
    simp [value, Binary64.num, hp, zpow_natCast]
  · next h =>
    obtain ⟨p, hp⟩ := Int.exists_eq_neg_ofNat (le_of_not_ge h)
    have h10 : (10 : ℚ) ^ p = 2 ^ p * 5 ^ p := by rw [← mul_pow]; norm_num
    simp only [value, hp, neg_neg, Int.toNat_natCast, Nat.pow_eq, Nat.cast_mul, Nat.cast_pow,
      Nat.cast_ofNat, zpow_neg, zpow_natCast, h10]
    field_simp

theorem toBinary64?_exact (hf : v.isFinite = true) :
    (exact v).toBinary64? = some ⟨v.magnitude.toUInt64⟩ :=
  (Binary64.ofDecimal?_eq v.den_pos (value_exact v)).trans (Binary64.ofRatio?_num_den hf)

theorem toBinary64?_onGrid? {k : Int} {d : Decimal} (h : onGrid? v k = some d) :
    d.toBinary64? = some ⟨v.magnitude.toUInt64⟩ := by
  unfold onGrid? at h
  dsimp only at h
  split at h
  · next hl hu =>
    cases h
    split
    · exact of_decide_eq_true hl
    · exact of_decide_eq_true hu
  · next hl _ =>
    cases h
    exact of_decide_eq_true hl
  · next _ hu =>
    cases h
    exact of_decide_eq_true hu
  · cases h

/-- **The shortest decimal reads back.** -/
theorem toBinary64?_shortest (hf : v.isFinite = true) :
    (shortest v).toBinary64? = some ⟨v.magnitude.toUInt64⟩ := by
  unfold shortest
  cases hs : (List.range 17).findSome? fun n : Nat => onGrid? v (leading v - (n : Int)) with
  | none => exact toBinary64?_exact hf
  | some d =>
    obtain ⟨n, -, hn⟩ := List.exists_of_findSome?_eq_some hs
    exact toBinary64?_onGrid? hn

/-! ### Digits and position -/

theorem exists_zeros (cs : List Char) :
    ∃ k, cs = (cs.reverse.dropWhile (· == '0')).reverse ++ List.replicate k '0' := by
  refine ⟨(cs.reverse.takeWhile (· == '0')).length, ?_⟩
  have hz : cs.reverse.takeWhile (· == '0') =
      List.replicate (cs.reverse.takeWhile (· == '0')).length '0' := by
    refine List.eq_replicate_iff.2 ⟨rfl, fun c hc => ?_⟩
    exact eq_of_beq (List.mem_takeWhile_imp (p := (· == '0')) hc)
  rw [← List.reverse_replicate, ← hz, ← List.reverse_append, List.takeWhile_append_dropWhile,
    List.reverse_reverse]

/-- The digits of a number other than zero, and the position of the first. -/
theorem scientific_spec {d : Decimal} (h : d.coefficient ≠ 0) :
    ∃ k, Digits.ofNat d.coefficient = d.scientific.1 ++ List.replicate k '0' ∧
      d.scientific.1 ≠ [] ∧
      d.scientific.2 = d.power + (Digits.ofNat d.coefficient).length - 1 := by
  obtain ⟨k, hk⟩ := exists_zeros (Digits.ofNat d.coefficient)
  have hne : ((Digits.ofNat d.coefficient).reverse.dropWhile (· == '0')).reverse ≠ [] := by
    intro h0
    refine h ?_
    rw [← Digits.toNat_ofNat d.coefficient, hk, h0, Digits.toNat_append_replicate]
    exact Nat.zero_mul _
  unfold scientific
  dsimp only
  rw [if_neg (by simpa using hne)]
  exact ⟨k, hk, hne, rfl⟩

/-- **Digits and position make up the number.** -/
theorem value_scientific {d : Decimal} (h : d.coefficient ≠ 0) :
    (Digits.toNat d.scientific.1 : ℚ) * 10 ^ (d.scientific.2 - d.scientific.1.length + 1) =
      d.value := by
  obtain ⟨k, hk, -, hx⟩ := scientific_spec h
  have hlen : (Digits.ofNat d.coefficient).length = d.scientific.1.length + k := by
    rw [hk, List.length_append, List.length_replicate]
  have hc : (d.coefficient : ℚ) = Digits.toNat d.scientific.1 * 10 ^ k := by
    rw [← Digits.toNat_ofNat d.coefficient, hk, Digits.toNat_append_replicate]
    push_cast
    rfl
  have he : d.scientific.2 - d.scientific.1.length + 1 = k + d.power := by omega
  rw [value, he, zpow_add₀ (by norm_num), zpow_natCast, hc, mul_assoc]

/-- The number lies between the powers of ten that the position says. -/
theorem scientific_bounds {d : Decimal} (h : d.coefficient ≠ 0) :
    (10 : ℚ) ^ d.scientific.2 ≤ d.value ∧ d.value < (10 : ℚ) ^ (d.scientific.2 + 1) := by
  obtain ⟨k, -, -, hx⟩ := scientific_spec h
  have h10 : (10 : ℚ) ≠ 0 := by norm_num
  have hlen := List.length_pos_iff.2 (Digits.ofNat_ne_nil d.coefficient)
  have hl : ((10 ^ ((Digits.ofNat d.coefficient).length - 1) : Nat) : ℚ) ≤ d.coefficient :=
    mod_cast Digits.pow_le_of_ne_zero _ h
  have hu : (d.coefficient : ℚ) < (10 ^ (Digits.ofNat d.coefficient).length : Nat) :=
    mod_cast Digits.lt_pow_length _
  have e₁ : d.scientific.2 = ((Digits.ofNat d.coefficient).length - 1 : Nat) + d.power := by omega
  have e₂ : d.scientific.2 + 1 = (Digits.ofNat d.coefficient).length + d.power := by omega
  push_cast at hl hu
  constructor
  · rw [value, e₁, zpow_add₀ h10, zpow_natCast]
    gcongr
  · rw [value, e₂, zpow_add₀ h10, zpow_natCast]
    gcongr

theorem coefficient_shortest (hf : v.isFinite = true) (h0 : v.magnitude ≠ 0) :
    (shortest v).coefficient ≠ 0 := by
  intro hc
  have hr := toBinary64?_shortest hf
  rw [toBinary64?, hc, Binary64.ofDecimal?, Nat.zero_mul, Binary64.ofRatio?, if_pos rfl] at hr
  have hm := v.magnitude_magnitude
  rw [← Option.some.inj hr] at hm
  exact h0 hm.symm

/-- The first digit of a finite number is not far from the point. -/
theorem scientific_shortest_bounds (hf : v.isFinite = true) (h0 : v.magnitude ≠ 0) :
    -1077 < (shortest v).scientific.2 ∧ (shortest v).scientific.2 < 1025 := by
  have hr := toBinary64?_shortest hf
  obtain ⟨hl, hu⟩ := Binary64.bounds_of_ofDecimal? hr (by rwa [v.magnitude_magnitude])
  obtain ⟨hle, hlt⟩ := scientific_bounds (coefficient_shortest hf h0)
  have h10 : (1 : ℚ) < 10 := by norm_num
  have hpow : ∀ n : Nat, (2 : ℚ) ^ (n : Int) ≤ 10 ^ (n : Int) := fun n =>
    zpow_le_zpow_left₀ (Int.natCast_nonneg n) two_pos.le (by norm_num)
  constructor
  · have h : (10 : ℚ) ^ (-1076 : Int) < 10 ^ ((shortest v).scientific.2 + 1) :=
      calc (10 : ℚ) ^ (-1076 : Int) ≤ 2 ^ (-1076 : Int) := by
            rw [zpow_neg, zpow_neg]
            exact inv_anti₀ (by positivity) (hpow 1076)
        _ ≤ (shortest v).value := hl
        _ < 10 ^ ((shortest v).scientific.2 + 1) := hlt
    have := (zpow_lt_zpow_iff_right₀ h10).1 h
    omega
  · have h : (10 : ℚ) ^ (shortest v).scientific.2 < 10 ^ (1025 : Int) :=
      calc (10 : ℚ) ^ (shortest v).scientific.2 ≤ (shortest v).value := hle
        _ < 2 ^ (1025 : Int) := hu
        _ ≤ 10 ^ (1025 : Int) := hpow 1025
    exact (zpow_lt_zpow_iff_right₀ h10).1 h

end Decimal

/-! ### Written numbers as numerals -/

namespace Exponent

/-- An exponent of at most five digits is read to its end. -/
theorem size_eq_toNat {e : Exponent} (h : Digits.toNat e.digits < 100000) :
    e.size = Digits.toNat e.digits := by
  have hle : ∀ (ds : List Char) (n : Nat),
      n ≤ ds.foldl (fun n c => 10 * n + Digits.value c) n := by
    intro ds
    induction ds with
    | nil => exact fun n => Nat.le_refl n
    | cons d ds ih =>
      intro n
      have := ih (10 * n + Digits.value d)
      rw [List.foldl_cons]
      omega
  have hfold : ∀ (ds : List Char) (n : Nat),
      ds.foldl (fun n c => 10 * n + Digits.value c) n < 100000 →
      ds.foldl (fun n c => if n < 10000 then 10 * n + Digits.value c else n) n =
        ds.foldl (fun n c => 10 * n + Digits.value c) n := by
    intro ds
    induction ds with
    | nil => exact fun _ _ => rfl
    | cons d ds ih =>
      intro n hn
      rw [List.foldl_cons] at hn ⊢
      have := hle ds (10 * n + Digits.value d)
      rw [if_pos (by omega), ih _ hn, List.foldl_cons]
  exact hfold e.digits 0 h

end Exponent

namespace Numeral

/-- The numeral is written `cs`, denotes a float and stands for the fraction `q`. -/
structure Writes (n : Numeral) (cs : List Char) (q : ℚ) : Prop where
  proper : n.Proper
  isFloat : n.isFloat = true
  whole_ne_nil : n.whole ≠ []
  length_le : n.whole.length ≤ wholeRoom
  text : n.text = cs
  value : ∃ k, n.power? = some k ∧ (n.coefficient : ℚ) * 10 ^ k = q

theorem Writes.toFloat? {n : Numeral} {cs : List Char} {c : Nat} {k : Int}
    (h : n.Writes cs (c * 10 ^ k)) : n.toFloat? = Binary64.ofDecimal? c k := by
  obtain ⟨j, hj, hv⟩ := h.value
  rw [toFloat?_of_length_le h.length_le, hj, Option.bind_some, Binary64.ofDecimal?_congr hv]

theorem writes_point {w f : List Char} (hw : ∀ c ∈ w, Digits.isDigit c = true)
    (hf : ∀ c ∈ f, Digits.isDigit c = true) (hne : w ≠ []) (hl : w.length ≤ 800) :
    (⟨w, some f, none⟩ : Numeral).Writes (w ++ '.' :: f)
      (Digits.toNat (w ++ f) * 10 ^ (-(f.length : Int))) where
  proper := ⟨hw, by simpa using hf, nofun, nofun, nofun⟩
  isFloat := rfl
  whole_ne_nil := hne
  length_le := hl
  text := by simp [text, fractionText, exponentText]
  value := ⟨_, rfl, rfl⟩

theorem writes_exponent {c : Char} {f : Option (List Char)} {e : Exponent}
    (hc : Digits.isDigit c = true) (hf : ∀ ds ∈ f, ∀ c ∈ ds, Digits.isDigit c = true)
    (hm : e.mark = 'e') (hs : ∀ s ∈ e.sign, s = '+' ∨ s = '-') (hne : e.digits ≠ [])
    (hd : ∀ c ∈ e.digits, Digits.isDigit c = true) :
    (⟨[c], f, some e⟩ : Numeral).Writes (c :: (fractionText f ++ e.text))
      (Digits.toNat (c :: f.getD []) * 10 ^ (e.value - (f.getD []).length)) where
  proper := by
    refine ⟨by simpa using hc, hf, ?_, ?_, ?_⟩
    · simp [hm]
    · simpa using hs
    · simpa using hd
  isFloat := Bool.or_true _
  whole_ne_nil := List.cons_ne_nil _ _
  length_le := by simp [wholeRoom]
  text := rfl
  value := ⟨_, if_neg (by simpa using hne), rfl⟩

end Numeral

namespace Binary64

/-- A text with a point behind it if nothing in it tells it from an integer. -/
def marked (cs : List Char) : List Char := if cs.any isFloatMark then cs else cs ++ ['.']

theorem toList_sourceText {v : Binary64} (hf : v.isFinite = true) :
    v.sourceText.toList = marked (Layout.source.write v) := by
  rw [sourceText, String.toList_ofList, if_pos hf]
  rfl

theorem marked_of_mem {c : Char} {cs : List Char} (hc : isFloatMark c = true) (h : c ∈ cs) :
    marked cs = cs := if_pos (List.any_eq_true.2 ⟨c, h, hc⟩)

theorem marked_of_digits {cs : List Char} (h : ∀ c ∈ cs, Digits.isDigit c = true) :
    marked cs = cs ++ ['.'] := by
  refine if_neg fun ha => ?_
  obtain ⟨c, hc, hm⟩ := List.any_eq_true.1 ha
  have hd := h c hc
  simp only [isFloatMark, Bool.or_eq_true, decide_eq_true_eq] at hm
  rcases hm with ((rfl | rfl) | rfl) | rfl <;> exact absurd hd (by decide)

end Binary64

namespace Layout

open Binary64 (marked marked_of_mem marked_of_digits)

variable {cs : List Char} {x : Int}

theorem isDigit_replicate (k : Nat) : ∀ c ∈ List.replicate k '0', Digits.isDigit c = true := by
  intro c hc
  rw [List.eq_of_mem_replicate hc]
  decide

def fraction (cs : List Char) (x : Int) : ℚ := Digits.toNat cs * 10 ^ (x - cs.length + 1)

/-- All digits stand behind the point, with zeros in front of them. -/
theorem exists_positional_of_neg (hd : ∀ c ∈ cs, Digits.isDigit c = true) (hx : x < 0) :
    ∃ n : Numeral, n.Writes (marked (positional cs x)) (fraction cs x) := by
  have hn : Digits.toNat (['0'] ++ (List.replicate (-x - 1).toNat '0' ++ cs)) = Digits.toNat cs :=
    (Digits.toNat_replicate_append 1 _).trans (Digits.toNat_replicate_append _ cs)
  have hw := Numeral.writes_point (w := ['0']) (List.forall_mem_singleton.2 rfl)
    (List.forall_mem_append.2 ⟨isDigit_replicate (-x - 1).toNat, hd⟩) (by simp) (by simp)
  have he : -((List.replicate (-x - 1).toNat '0' ++ cs).length : Int) = x - cs.length + 1 := by
    rw [List.length_append, List.length_replicate]
    omega
  rw [hn, he] at hw
  rw [positional, if_pos hx, marked_of_mem (c := '.') rfl (by simp)]
  exact ⟨_, hw⟩

/-- All digits stand in front of the point, with zeros behind them. -/
theorem exists_positional_of_length_le (hd : ∀ c ∈ cs, Digits.isDigit c = true) (hne : cs ≠ [])
    (h0 : ¬x < 0) (hx : x < 800) (hl : cs.length ≤ x.toNat + 1) :
    ∃ n : Numeral, n.Writes (marked (positional cs x)) (fraction cs x) := by
  have hz := List.forall_mem_append.2 ⟨hd, isDigit_replicate (x.toNat + 1 - cs.length)⟩
  have hw := Numeral.writes_point (f := []) hz nofun (by simp [hne]) (by simp; omega)
  have hq : ((Digits.toNat cs * 10 ^ (x.toNat + 1 - cs.length) : Nat) : ℚ) *
      10 ^ (-(([] : List Char).length : Int)) = fraction cs x := by
    have he : x - cs.length + 1 = ((x.toNat + 1 - cs.length : Nat) : Int) := by omega
    rw [fraction, he, zpow_natCast]
    simp
  rw [List.append_nil, Digits.toNat_append_replicate, hq] at hw
  rw [positional, if_neg h0]
  dsimp only
  rw [if_pos hl, marked_of_digits hz]
  exact ⟨_, hw⟩

/-- The point stands between two digits. -/
theorem exists_positional_of_lt (hd : ∀ c ∈ cs, Digits.isDigit c = true) (hne : cs ≠ [])
    (h0 : ¬x < 0) (hx : x < 800) (hl : ¬cs.length ≤ x.toNat + 1) :
    ∃ n : Numeral, n.Writes (marked (positional cs x)) (fraction cs x) := by
  have hw := Numeral.writes_point (w := cs.take (x.toNat + 1)) (f := cs.drop (x.toNat + 1))
    (fun c hc => hd c (List.mem_of_mem_take hc)) (fun c hc => hd c (List.mem_of_mem_drop hc))
    (by simp [hne]) (by simp; omega)
  have he : -((cs.drop (x.toNat + 1)).length : Int) = x - cs.length + 1 := by
    rw [List.length_drop]
    omega
  rw [List.take_append_drop, he] at hw
  rw [positional, if_neg h0]
  dsimp only
  rw [if_neg hl, marked_of_mem (c := '.') rfl (by simp)]
  exact ⟨_, hw⟩

/-- **A positional number is the text of a numeral.** -/
theorem exists_positional (hd : ∀ c ∈ cs, Digits.isDigit c = true) (hne : cs ≠ [])
    (hx : x < 800) : ∃ n : Numeral, n.Writes (marked (positional cs x)) (fraction cs x) := by
  by_cases h0 : x < 0
  · exact exists_positional_of_neg hd h0
  by_cases hl : cs.length ≤ x.toNat + 1
  · exact exists_positional_of_length_le hd hne h0 hx hl
  · exact exists_positional_of_lt hd hne h0 hx hl

def exponentOf (width : Nat) (x : Int) : Exponent where
  mark := 'e'
  sign := some (if x < 0 then '-' else '+')
  digits := List.replicate (width - (Digits.ofNat x.natAbs).length) '0' ++ Digits.ofNat x.natAbs

theorem value_exponentOf (width : Nat) (hx : x.natAbs < 100000) :
    (exponentOf width x).value = x := by
  have hd : Digits.toNat (exponentOf width x).digits = x.natAbs := by
    rw [exponentOf, Digits.toNat_replicate_append, Digits.toNat_ofNat]
  rw [Exponent.value, Exponent.size_eq_toNat (hd ▸ hx), hd]
  by_cases h : x < 0
  · rw [if_pos (by simp [exponentOf, h])]
    omega
  · rw [if_neg (by simp [exponentOf, h])]
    omega

/-- **A number with an exponent is the text of a numeral.** -/
theorem exists_withExponent (width : Nat) (hd : ∀ c ∈ cs, Digits.isDigit c = true) (hne : cs ≠ [])
    (hx : x.natAbs < 100000) :
    ∃ n : Numeral, n.Writes (marked (withExponent width cs x)) (fraction cs x) := by
  have hs : ∀ s ∈ (exponentOf width x).sign, s = '+' ∨ s = '-' := by
    intro s hs
    obtain rfl := Option.some.inj hs
    split
    · exact .inr rfl
    · exact .inl rfl
  have hen : (exponentOf width x).digits ≠ [] := by simp [exponentOf, Digits.ofNat_ne_nil]
  have hed : ∀ c ∈ (exponentOf width x).digits, Digits.isDigit c = true :=
    List.forall_mem_append.2 ⟨isDigit_replicate _, Digits.isDigit_ofNat _⟩
  obtain ⟨c, r, rfl⟩ := List.exists_cons_of_ne_nil hne
  obtain ⟨hc, hr⟩ := List.forall_mem_cons.1 hd
  cases r with
  | nil =>
    have hw := Numeral.writes_exponent (f := none) hc nofun rfl hs hen hed
    have hq : (Digits.toNat [c] : ℚ) * 10 ^ (x - (([] : List Char).length : Int)) =
        fraction [c] x := by
      rw [fraction]
      simp
    rw [value_exponentOf width hx] at hw
    rw [withExponent, marked_of_mem (c := 'e') rfl (by simp [exponent])]
    exact ⟨_, hq ▸ hw⟩
  | cons d r =>
    have hw := Numeral.writes_exponent (f := some (d :: r)) hc (by simpa using hr) rfl hs hen hed
    have hq : (Digits.toNat (c :: d :: r) : ℚ) * 10 ^ (x - ((d :: r).length : Int)) =
        fraction (c :: d :: r) x := by
      rw [fraction]
      congr 2
      simp only [List.length_cons]
      omega
    have he : withExponent width (c :: d :: r) x = c :: '.' :: (d :: r ++ exponent width x) := rfl
    rw [value_exponentOf width hx] at hw
    rw [he, marked_of_mem (c := 'e') rfl (by simp [exponent])]
    exact ⟨_, hq ▸ hw⟩

end Layout

namespace Binary64

open Decimal (shortest)

variable {v : Binary64}

theorem exists_writes (hf : v.isFinite = true) (hn : v.isNegative = false) :
    ∃ (n : Numeral) (c : Nat) (k : Int), n.Writes v.sourceText.toList (c * 10 ^ k) ∧
      ofDecimal? c k = some v := by
  have hv := magnitude_toUInt64 hn
  have hw : Layout.source.write v = Layout.source.magnitude v := if_neg (by simp [hn])
  rw [toList_sourceText hf, hw, Layout.magnitude]
  by_cases h0 : v.magnitude = 0
  · obtain ⟨n, hw⟩ : ∃ n : Numeral, n.Writes (marked (Layout.positional ['0'] 0))
        (Layout.fraction ['0'] 0) := Layout.exists_positional (List.forall_mem_singleton.2 rfl)
      (List.cons_ne_nil _ _) (by decide)
    rw [if_pos h0]
    have hz : Digits.toNat ['0'] = 0 := rfl
    have hq : Layout.fraction ['0'] 0 = (0 : Nat) * 10 ^ (0 : Int) := by
      rw [Layout.fraction, hz, Nat.cast_zero, zero_mul, zero_mul]
    refine ⟨n, 0, 0, hq ▸ hw, ?_⟩
    rw [← hv, h0, ofDecimal?, Nat.zero_mul, ofRatio?, if_pos rfl]
    rfl
  · have hc := Decimal.coefficient_shortest hf h0
    obtain ⟨k, hk, hne, -⟩ := Decimal.scientific_spec hc
    have hx : (shortest v).scientific.2.natAbs < 100000 := by
      have := Decimal.scientific_shortest_bounds hf h0
      omega
    have hd : ∀ c ∈ (shortest v).scientific.1, Digits.isDigit c = true := fun c hc =>
      Digits.isDigit_ofNat _ c (hk ▸ List.mem_append_left _ hc)
    have hr := Decimal.toBinary64?_shortest hf
    rw [hv] at hr
    have hq : Layout.fraction (shortest v).scientific.1 (shortest v).scientific.2 =
        (shortest v).coefficient * 10 ^ (shortest v).power := Decimal.value_scientific hc
    rw [if_neg h0]
    by_cases h : Layout.source.low ≤ (shortest v).scientific.2 ∧
        (shortest v).scientific.2 < Layout.source.high
    · obtain ⟨n, hw⟩ := Layout.exists_positional hd hne (h.2.trans (by decide))
      rw [if_pos h]
      exact ⟨n, (shortest v).coefficient, (shortest v).power, hq ▸ hw, hr⟩
    · obtain ⟨n, hw⟩ := Layout.exists_withExponent 2 hd hne hx
      rw [if_neg h]
      exact ⟨n, (shortest v).coefficient, (shortest v).power, hq ▸ hw, hr⟩

/-- **A finite number without sign is shown as a numeral that denotes it.** -/
theorem exists_numeral (hf : v.isFinite = true) (hn : v.isNegative = false) :
    ∃ n : Numeral, n.Proper ∧ n.isFloat = true ∧ n.whole ≠ [] ∧ n.text = v.sourceText.toList ∧
      n.toFloat? = some v := by
  obtain ⟨n, c, k, hw, hv⟩ := exists_writes hf hn
  exact ⟨n, hw.proper, hw.isFloat, hw.whole_ne_nil, hw.text, hw.toFloat?.trans hv⟩

/-- **Different numbers are shown differently.** -/
theorem sourceText_injective {w : Binary64} (hf : v.isFinite = true) (hn : v.isNegative = false)
    (hf' : w.isFinite = true) (hn' : w.isNegative = false) (h : v.sourceText = w.sourceText) :
    v = w := by
  obtain ⟨m, hm, -, -, hmt, hmv⟩ := exists_numeral hf hn
  obtain ⟨n, hp, -, -, hnt, hnv⟩ := exists_numeral hf' hn'
  have hr := hm.read_text
  rw [hmt, h, ← hnt, hp.read_text] at hr
  rw [← (Prod.mk.inj hr).1, hnv] at hmv
  exact (Option.some.inj hmv).symm

end Binary64

end SmallMl
