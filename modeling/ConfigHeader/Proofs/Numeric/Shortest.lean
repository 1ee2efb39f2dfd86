import ConfigHeader.Proofs.Numeric.Rounding

/-! Reading decimals. What a decimal is read as depends on its value alone, also where its exponent
alone decides, so the decimal that a number is written with is read back in any spelling. -/
namespace ConfigHeader

/-- The magnitude of a decimal. -/
def Decimal.value (decimal : Decimal) : ℚ :=
  decimal.digits * 10 ^ decimal.exponent

namespace Binary64

variable {negative : Bool} {decimal decimal' : Decimal} {number : Binary64}

theorem unscale_decimal (decimal : Decimal) :
    ((unscale 10 (-decimal.exponent) decimal.digits 1).1 : ℚ) /
      (unscale 10 (-decimal.exponent) decimal.digits 1).2 = decimal.value := by
  rw [unscale_value (by norm_num), Decimal.value, zpow_neg]
  simp

theorem unscale_decimal_positive (decimal : Decimal) (filled : decimal.digits ≠ 0) :
    0 < (unscale 10 (-decimal.exponent) decimal.digits 1).1 ∧
      0 < (unscale 10 (-decimal.exponent) decimal.digits 1).2 :=
  ⟨Nat.mul_pos (Nat.pos_of_ne_zero filled) (Nat.pow_pos (by norm_num)),
    unscale_positive (by norm_num) (by norm_num) _⟩

/-- Three binary digits are less than one decimal digit. -/
theorem digits_lt_pow (digits : ℕ) : digits < 10 ^ (digits.log2 / 3 + 1) := by
  calc digits < 2 ^ (digits.log2 + 1) := Nat.lt_log2_self
    _ ≤ 2 ^ (3 * (digits.log2 / 3 + 1)) := Nat.pow_le_pow_right (by norm_num) (by omega)
    _ = 8 ^ (digits.log2 / 3 + 1) := by rw [Nat.pow_mul]
    _ ≤ 10 ^ (digits.log2 / 3 + 1) := Nat.pow_le_pow_left (by norm_num) _

theorem two_pow_lt_ten_pow : (2 : ℚ) ^ (1075 : ℤ) < 10 ^ (401 : ℤ) := by
  have natural : 2 ^ 1075 < 10 ^ 401 := by decide +kernel
  exact_mod_cast natural

theorem le_value_of_exponent (filled : decimal.digits ≠ 0) (large : 400 < decimal.exponent) :
    (2 : ℚ) ^ (1024 : ℤ) ≤ decimal.value := by
  have least : (1 : ℚ) ≤ decimal.digits := by exact_mod_cast Nat.one_le_iff_ne_zero.mpr filled
  calc (2 : ℚ) ^ (1024 : ℤ) ≤ 2 ^ (1075 : ℤ) := zpow_le_zpow_right₀ (by norm_num) (by norm_num)
    _ ≤ 1 * 10 ^ (401 : ℤ) := by
      rw [one_mul]
      exact two_pow_lt_ten_pow.le
    _ ≤ decimal.digits * 10 ^ decimal.exponent := by
      gcongr
      · norm_num
      · omega

theorem value_lt_of_exponent
    (small : decimal.exponent + (decimal.digits.log2 / 3 + 1 : ℕ) < -400) :
    decimal.value < 2 ^ (-1075 : ℤ) := by
  have bound : (decimal.digits : ℚ) < 10 ^ ((decimal.digits.log2 / 3 + 1 : ℕ) : ℤ) := by
    rw [zpow_natCast]
    exact_mod_cast digits_lt_pow decimal.digits
  calc decimal.value < 10 ^ ((decimal.digits.log2 / 3 + 1 : ℕ) : ℤ) * 10 ^ decimal.exponent := by
        rw [Decimal.value]
        gcongr
    _ = 10 ^ (decimal.exponent + (decimal.digits.log2 / 3 + 1 : ℕ)) := by
        rw [← zpow_add₀ (by norm_num), add_comm]
    _ ≤ 10 ^ (-401 : ℤ) := zpow_le_zpow_right₀ (by norm_num) (by omega)
    _ < 2 ^ (-1075 : ℤ) := by
        rw [zpow_neg, zpow_neg]
        exact inv_strictAnti₀ (by positivity) two_pow_lt_ten_pow

/-- Where the value is in the range of the numbers, the exponent alone does not decide. -/
theorem ofDecimal?_eq_ofRatio? {numerator denominator : ℕ} (positive : 0 < denominator)
    (same : (numerator : ℚ) / denominator = decimal.value)
    (low : 2 ^ (-1075 : ℤ) ≤ decimal.value) (high : decimal.value < 2 ^ (1024 : ℤ)) :
    ofDecimal? negative decimal = ofRatio? negative numerator denominator := by
  have filled : decimal.digits ≠ 0 := by
    intro zero
    rw [Decimal.value, zero, Nat.cast_zero, zero_mul] at low
    exact absurd low (not_le.mpr (by positivity))
  have finite : ¬ 400 < decimal.exponent :=
    fun large => absurd (le_value_of_exponent filled large) (not_le.mpr high)
  have normal : ¬ decimal.exponent + (decimal.digits.log2 / 3 + 1 : ℕ) < -400 :=
    fun small => absurd (value_lt_of_exponent small) (not_lt.mpr low)
  obtain ⟨above, under⟩ := unscale_decimal_positive decimal filled
  rw [ofDecimal?, if_neg filled, if_neg finite, if_neg normal]
  exact ofRatio?_congr negative above under positive ((unscale_decimal decimal).trans same.symm)

theorem value_bounds (found : ofDecimal? negative decimal = some number)
    (filled : number.significand ≠ 0) :
    2 ^ (-1075 : ℤ) ≤ decimal.value ∧ decimal.value < 2 ^ (1024 : ℤ) := by
  unfold ofDecimal? at found
  split at found
  · obtain rfl := Option.some.inj found
    exact absurd rfl filled
  · rename_i digits
    split at found
    · cases found
    · split at found
      · obtain rfl := Option.some.inj found
        exact absurd rfl filled
      · obtain ⟨above, under⟩ := unscale_decimal_positive decimal digits
        rw [← unscale_decimal decimal]
        exact ⟨le_of_ofRatio? above under found filled, lt_of_ofRatio? above under found⟩

/-- Decimals of one value are read as one number. -/
theorem ofDecimal?_congr (same : decimal.value = decimal'.value)
    (found : ofDecimal? negative decimal = some number) (filled : number.significand ≠ 0) :
    ofDecimal? negative decimal' = some number := by
  obtain ⟨low, high⟩ := value_bounds found filled
  have under := @unscale_positive decimal.digits 1 10 (by norm_num) (by norm_num) (-decimal.exponent)
  rw [ofDecimal?_eq_ofRatio? under (unscale_decimal decimal) low high] at found
  rw [ofDecimal?_eq_ofRatio? under ((unscale_decimal decimal).trans same) (same ▸ low) (same ▸ high),
    found]

theorem value_exactDecimal (number : Binary64) : number.exactDecimal.value = number.magnitude := by
  unfold exactDecimal magnitude
  split
  · rename_i below
    obtain ⟨power, exponent⟩ := Int.eq_ofNat_of_zero_le (show 0 ≤ -number.exponent by omega)
    rw [show number.exponent = -(power : ℤ) by omega, Decimal.value]
    simp only [Int.natAbs_neg, Int.natAbs_natCast, Nat.pow_eq, Nat.cast_mul, Nat.cast_pow,
      Nat.cast_ofNat, zpow_neg, zpow_natCast]
    rw [show (10 : ℚ) = 5 * 2 by norm_num, mul_pow]
    field_simp
  · rename_i above
    obtain ⟨power, exponent⟩ := Int.eq_ofNat_of_zero_le (not_lt.mp above)
    simp [exponent, Decimal.value]

theorem magnitude_bounds (filled : number.significand ≠ 0) :
    2 ^ (-1075 : ℤ) ≤ number.magnitude ∧ number.magnitude < 2 ^ (1024 : ℤ) := by
  have fits := isExponentOf_magnitude number
  have limit := number.canonical.2.2.1
  have least : (1 : ℚ) ≤ number.significand := by exact_mod_cast Nat.one_le_iff_ne_zero.mpr filled
  constructor
  · calc (2 : ℚ) ^ (-1075 : ℤ) ≤ 1 * 2 ^ number.exponent := by
          rw [one_mul]
          exact zpow_le_zpow_right₀ (by norm_num) (by linarith [fits.least])
      _ ≤ number.magnitude := by
          rw [magnitude]
          gcongr
  · exact fits.below.trans_le (zpow_le_zpow_right₀ (by norm_num) (by omega))

theorem ofDecimal?_exactDecimal (filled : number.significand ≠ 0) :
    ofDecimal? number.negative number.exactDecimal = some number := by
  obtain ⟨low, high⟩ := magnitude_bounds filled
  rw [← value_exactDecimal] at low high
  have ratio := unscale_decimal number.exactDecimal
  have under := @unscale_positive number.exactDecimal.digits 1 10 (by norm_num) (by norm_num)
    (-number.exactDecimal.exponent)
  rw [ofDecimal?_eq_ofRatio? under ratio low high]
  exact ofRatio?_magnitude filled under (ratio.trans (value_exactDecimal number))

/-- A number is read back from the decimal that it is written with. -/
theorem ofDecimal?_shortest (filled : number.significand ≠ 0) :
    ofDecimal? number.negative number.shortest = some number := by
  unfold shortest
  cases found : (List.range 17).findSome? fun (extra : ℕ) =>
    (number.neighbours (number.powerAbove - 1 - extra)).find? fun candidate =>
      ofDecimal? number.negative candidate == some number with
  | some decimal =>
    obtain ⟨extra, -, candidate⟩ := List.exists_of_findSome?_eq_some found
    have passed := List.find?_some candidate
    simpa using passed
  | none => exact ofDecimal?_exactDecimal filled

end Binary64

end ConfigHeader
