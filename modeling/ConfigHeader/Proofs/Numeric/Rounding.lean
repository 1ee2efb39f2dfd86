import ConfigHeader.Numeric.Binary64
import Mathlib

/-! Rounding to binary64. The exponent of a ratio is the least one under which the ratio has at most
53 binary digits before the point; it is unique, so the rounding of a ratio depends on its value
alone, and a ratio that is a number already is rounded to that number. -/
namespace ConfigHeader.Binary64

/-- The magnitude of a number. -/
def magnitude (number : Binary64) : ℚ :=
  number.significand * 2 ^ number.exponent

section Quotient

variable {numerator denominator numerator' denominator' : ℕ}

theorem roundQuotient_mul_left {factor : ℕ} (positive : 0 < factor) :
    roundQuotient (factor * numerator) (factor * denominator) =
      roundQuotient numerator denominator := by
  have twice : 2 * (factor * (numerator % denominator)) = factor * (2 * (numerator % denominator)) := by
    ring
  simp only [roundQuotient, Nat.mul_div_mul_left _ _ positive, Nat.mul_mod_mul_left, twice,
    Nat.mul_lt_mul_left positive, Nat.mul_right_inj positive.ne']

/-- A rounded quotient depends on the value of the quotient alone. -/
theorem roundQuotient_congr (positive : 0 < denominator) (positive' : 0 < denominator')
    (same : (numerator : ℚ) / denominator = numerator' / denominator') :
    roundQuotient numerator denominator = roundQuotient numerator' denominator' := by
  have crossed : denominator' * numerator = denominator * numerator' := by
    rw [div_eq_div_iff (by positivity) (by positivity)] at same
    have natural : numerator * denominator' = numerator' * denominator := by exact_mod_cast same
    linarith
  rw [← roundQuotient_mul_left positive', crossed, mul_comm denominator' denominator,
    roundQuotient_mul_left positive]

theorem roundQuotient_one (number : ℕ) : roundQuotient number 1 = number := by
  simp [roundQuotient, Nat.mod_one]

theorem roundQuotient_of_lt_half (small : 2 * numerator < denominator) :
    roundQuotient numerator denominator = 0 := by
  have below : numerator < denominator := by omega
  rw [roundQuotient, Nat.mod_eq_of_lt below, if_pos small, Nat.div_eq_of_lt below]

theorem unscale_positive {base : ℕ} (positive : 0 < base) (filled : 0 < denominator) (exponent : ℤ) :
    0 < (unscale base exponent numerator denominator).2 :=
  Nat.mul_pos filled (Nat.pow_pos positive)

theorem unscale_value {base : ℕ} (positive : 0 < base) (exponent : ℤ) :
    ((unscale base exponent numerator denominator).1 : ℚ) /
        (unscale base exponent numerator denominator).2 =
      numerator / denominator / (base : ℚ) ^ exponent := by
  have nonzero : (base : ℚ) ≠ 0 := by positivity
  obtain ⟨power, rfl | rfl⟩ := exponent.eq_nat_or_neg
  · simp [unscale, div_div]
  · simp [unscale]
    ring

end Quotient

/-- The exponent under which a ratio is rounded. -/
structure IsExponentOf (ratio : ℚ) (exponent : ℤ) : Prop where
  least : -1074 ≤ exponent
  below : ratio < 2 ^ (exponent + 53)
  normal : exponent = -1074 ∨ 2 ^ (exponent + 52) ≤ ratio

theorem IsExponentOf.unique {ratio : ℚ} {exponent exponent' : ℤ}
    (left : IsExponentOf ratio exponent) (right : IsExponentOf ratio exponent') :
    exponent = exponent' := by
  have bound {first second : ℤ} (one : IsExponentOf ratio first) (other : IsExponentOf ratio second) :
      second ≤ first := by
    rcases other.normal with least | normal
    · exact least ▸ one.least
    · have powers := (zpow_lt_zpow_iff_right₀ (by norm_num)).mp (normal.trans_lt one.below)
      omega
  exact le_antisymm (bound right left) (bound left right)

section Exponent

variable {numerator denominator : ℕ}

theorem lt_pow_of_log2 (numerator : ℕ) : (numerator : ℚ) < 2 ^ ((numerator.log2 : ℤ) + 1) := by
  have bound : numerator < 2 ^ (numerator.log2 + 1) := Nat.lt_log2_self
  exact_mod_cast bound

theorem pow_log2_le (positive : 0 < numerator) : (2 : ℚ) ^ (numerator.log2 : ℤ) ≤ numerator := by
  have bound : 2 ^ numerator.log2 ≤ numerator := Nat.log2_self_le positive.ne'
  exact_mod_cast bound

/-- The binary logarithms tell the size of a ratio up to two binary digits. -/
theorem ratio_bounds (positive : 0 < numerator) (positive' : 0 < denominator) :
    (2 : ℚ) ^ ((numerator.log2 : ℤ) - denominator.log2 - 1) ≤ numerator / denominator ∧
      (numerator : ℚ) / denominator < 2 ^ ((numerator.log2 : ℤ) - denominator.log2 + 1) := by
  have filled : (0 : ℚ) < denominator := by exact_mod_cast positive'
  constructor
  · rw [le_div_iff₀ filled]
    calc (2 : ℚ) ^ ((numerator.log2 : ℤ) - denominator.log2 - 1) * denominator
        ≤ 2 ^ ((numerator.log2 : ℤ) - denominator.log2 - 1) * 2 ^ ((denominator.log2 : ℤ) + 1) := by
          gcongr
          exact (lt_pow_of_log2 denominator).le
      _ = 2 ^ (numerator.log2 : ℤ) := by
          rw [← zpow_add₀ (by norm_num)]
          congr 1
          omega
      _ ≤ numerator := pow_log2_le positive
  · rw [div_lt_iff₀ filled]
    calc (numerator : ℚ) < 2 ^ ((numerator.log2 : ℤ) + 1) := lt_pow_of_log2 numerator
      _ = 2 ^ ((numerator.log2 : ℤ) - denominator.log2 + 1) * 2 ^ (denominator.log2 : ℤ) := by
          rw [← zpow_add₀ (by norm_num)]
          congr 1
          omega
      _ ≤ 2 ^ ((numerator.log2 : ℤ) - denominator.log2 + 1) * denominator := by
          gcongr
          exact pow_log2_le positive'

/-- The quotient has at most 53 binary digits exactly if the exponent is not too small. -/
theorem quotient_lt_iff (positive : 0 < denominator) (exponent : ℤ) :
    (unscale 2 exponent numerator denominator).1 / (unscale 2 exponent numerator denominator).2 <
        Nat.pow 2 53 ↔
      (numerator : ℚ) / denominator < 2 ^ (exponent + 53) := by
  have filled := @unscale_positive numerator denominator 2 (by norm_num) positive exponent
  have value := @unscale_value numerator denominator 2 (by norm_num) exponent
  generalize (unscale 2 exponent numerator denominator).1 = above at *
  generalize (unscale 2 exponent numerator denominator).2 = under at *
  have ratio : (above : ℚ) < 2 ^ (53 : ℤ) * under ↔
      (numerator : ℚ) / denominator < 2 ^ (exponent + 53) := by
    rw [← div_lt_iff₀ (by exact_mod_cast filled), value, div_lt_iff₀ (by positivity),
      Nat.cast_ofNat, ← zpow_add₀ (by norm_num), add_comm]
  rw [Nat.div_lt_iff_lt_mul filled, ← ratio]
  exact_mod_cast Iff.rfl

/-- The number nearest to a ratio among those with an exponent and the next greater one. -/
def roundAt (negative : Bool) (exponent : ℤ) (numerator denominator : ℕ) : Option Binary64 :=
  let exact := unscale 2 exponent numerator denominator
  let significand := roundQuotient exact.1 exact.2
  if significand = Nat.pow 2 53 then ofParts? negative (Nat.pow 2 52) (exponent + 1)
  else ofParts? negative significand exponent

theorem roundAt_congr {numerator' denominator' : ℕ} (positive : 0 < denominator)
    (positive' : 0 < denominator')
    (same : (numerator : ℚ) / denominator = numerator' / denominator') (negative : Bool)
    (exponent : ℤ) :
    roundAt negative exponent numerator denominator =
      roundAt negative exponent numerator' denominator' := by
  have filled := @unscale_positive numerator denominator 2 (by norm_num) positive exponent
  have filled' := @unscale_positive numerator' denominator' 2 (by norm_num) positive' exponent
  have rounded := roundQuotient_congr filled filled'
    (by rw [unscale_value (by norm_num), unscale_value (by norm_num), same])
  simp only [roundAt, rounded]

/-- The exponent that is tried first is right, or the next one is. -/
theorem ofRatio?_eq_roundAt (negative : Bool) (positive : 0 < numerator)
    (positive' : 0 < denominator) :
    ∃ exponent, IsExponentOf ((numerator : ℚ) / denominator) exponent ∧
      ofRatio? negative numerator denominator = roundAt negative exponent numerator denominator := by
  refine ⟨_, ?_, rfl⟩
  obtain ⟨low, high⟩ := ratio_bounds positive positive'
  have near : (numerator.log2 : ℤ) - denominator.log2 - 53 ≤
      max (-1074) ((numerator.log2 : ℤ) - denominator.log2 - 53) := le_max_right _ _
  have least : -1074 ≤ max (-1074) ((numerator.log2 : ℤ) - denominator.log2 - 53) := le_max_left _ _
  have chosen := max_choice (-1074) ((numerator.log2 : ℤ) - denominator.log2 - 53)
  generalize max (-1074) ((numerator.log2 : ℤ) - denominator.log2 - 53) = estimate at *
  split
  · rename_i fits
    refine ⟨least, (quotient_lt_iff positive' estimate).mp fits, ?_⟩
    rcases chosen with bottom | exact
    · exact .inl bottom
    · rw [show (numerator.log2 : ℤ) - denominator.log2 - 1 = estimate + 52 by omega] at low
      exact .inr low
  · rename_i large
    rw [quotient_lt_iff positive' estimate, not_lt] at large
    refine ⟨by omega, high.trans_le ?_, .inr ?_⟩
    · exact zpow_le_zpow_right₀ (by norm_num) (by omega)
    · rwa [show estimate + 1 + 52 = estimate + 53 by omega]

theorem ofRatio?_eq_of_isExponentOf (negative : Bool) (positive : 0 < numerator)
    (positive' : 0 < denominator) {exponent : ℤ}
    (fits : IsExponentOf ((numerator : ℚ) / denominator) exponent) :
    ofRatio? negative numerator denominator = roundAt negative exponent numerator denominator := by
  obtain ⟨chosen, fitsToo, rounded⟩ := ofRatio?_eq_roundAt negative positive positive'
  rw [rounded, fitsToo.unique fits]

/-- The number nearest to a ratio depends on the value of the ratio alone. -/
theorem ofRatio?_congr {numerator' denominator' : ℕ} (negative : Bool) (positive : 0 < numerator)
    (positive' : 0 < denominator) (positive'' : 0 < denominator')
    (same : (numerator : ℚ) / denominator = numerator' / denominator') :
    ofRatio? negative numerator denominator = ofRatio? negative numerator' denominator' := by
  have above : 0 < numerator' := by
    have ratio : (0 : ℚ) < numerator' / denominator' := same ▸ by positivity
    rw [div_pos_iff_of_pos_right (by exact_mod_cast positive'')] at ratio
    exact_mod_cast ratio
  obtain ⟨exponent, fits, rounded⟩ := ofRatio?_eq_roundAt negative positive positive'
  rw [rounded, roundAt_congr positive' positive'' same,
    ofRatio?_eq_of_isExponentOf negative above positive'' (same ▸ fits)]

end Exponent

section Result

variable {negative : Bool} {numerator denominator : ℕ} {number : Binary64}

theorem ofParts?_self (number : Binary64) :
    ofParts? number.negative number.significand number.exponent = some number := by
  rw [ofParts?, dif_pos number.canonical]

/-- Only the least exponent has a number without a significand. -/
theorem eq_zero (empty : number.significand = 0) : zero number.negative = number := by
  obtain ⟨negative, significand, exponent, canonical⟩ := number
  obtain rfl : significand = 0 := empty
  obtain ⟨-, -, -, normal | rfl⟩ := canonical
  · exact absurd normal (by decide)
  · rfl

theorem parts_of_ofParts? {significand : ℕ} {exponent : ℤ}
    (found : ofParts? negative significand exponent = some number) :
    number.significand = significand ∧ number.exponent = exponent := by
  unfold ofParts? at found
  split at found
  · obtain rfl := Option.some.inj found
    exact ⟨rfl, rfl⟩
  · cases found

theorem isExponentOf_magnitude (number : Binary64) :
    IsExponentOf number.magnitude number.exponent := by
  obtain ⟨below, least, -, normal⟩ := number.canonical
  have scale : (0 : ℚ) < 2 ^ number.exponent := by positivity
  refine ⟨least, ?_, ?_⟩
  · rw [magnitude, add_comm, zpow_add₀ (by norm_num)]
    gcongr
    exact_mod_cast below
  · rcases normal with normal | bottom
    · right
      rw [magnitude, add_comm, zpow_add₀ (by norm_num)]
      gcongr
      exact_mod_cast normal
    · exact .inl bottom

/-- A ratio that is the magnitude of a number is rounded to that number. -/
theorem ofRatio?_magnitude (filled : number.significand ≠ 0) (positive : 0 < denominator)
    (exact : (numerator : ℚ) / denominator = number.magnitude) :
    ofRatio? number.negative numerator denominator = some number := by
  have scale : (0 : ℚ) < 2 ^ number.exponent := by positivity
  have above : 0 < numerator := by
    have magnitude : (0 : ℚ) < number.magnitude := by
      rw [Binary64.magnitude]
      positivity
    rw [← exact, div_pos_iff_of_pos_right (by exact_mod_cast positive)] at magnitude
    exact_mod_cast magnitude
  have rounded : roundQuotient (unscale 2 number.exponent numerator denominator).1
      (unscale 2 number.exponent numerator denominator).2 = number.significand := by
    rw [← roundQuotient_one number.significand]
    refine roundQuotient_congr (unscale_positive (by norm_num) positive _) (by norm_num) ?_
    rw [unscale_value (by norm_num), exact, magnitude]
    push_cast
    field_simp
  have fits := isExponentOf_magnitude number
  rw [← exact] at fits
  rw [ofRatio?_eq_of_isExponentOf _ above positive fits, roundAt]
  simp only [rounded]
  rw [if_neg number.canonical.1.ne, ofParts?_self]

/-- Only ratios below the first power of two that is not finite are rounded to a number. -/
theorem lt_of_ofRatio? (positive : 0 < numerator) (positive' : 0 < denominator)
    (found : ofRatio? negative numerator denominator = some number) :
    (numerator : ℚ) / denominator < 2 ^ (1024 : ℤ) := by
  obtain ⟨exponent, fits, rounded⟩ := ofRatio?_eq_roundAt negative positive positive'
  have bound : exponent ≤ 971 := by
    have limit := number.canonical.2.2.1
    rw [rounded, roundAt] at found
    split at found
    · have same := (parts_of_ofParts? found).2
      omega
    · have same := (parts_of_ofParts? found).2
      omega
  exact fits.below.trans_le (zpow_le_zpow_right₀ (by norm_num) (by omega))

/-- Ratios of less than half the least number are rounded to zero. -/
theorem le_of_ofRatio? (positive : 0 < numerator) (positive' : 0 < denominator)
    (found : ofRatio? negative numerator denominator = some number)
    (filled : number.significand ≠ 0) :
    (2 : ℚ) ^ (-1075 : ℤ) ≤ numerator / denominator := by
  by_contra small
  rw [not_le] at small
  have fits : IsExponentOf ((numerator : ℚ) / denominator) (-1074) :=
    ⟨le_rfl, small.trans_le (zpow_le_zpow_right₀ (by norm_num) (by norm_num)), .inl rfl⟩
  have rounded : roundQuotient (unscale 2 (-1074) numerator denominator).1
      (unscale 2 (-1074) numerator denominator).2 = 0 := by
    apply roundQuotient_of_lt_half
    have under := @unscale_positive numerator denominator 2 (by norm_num) positive' (-1074)
    have value := @unscale_value numerator denominator 2 (by norm_num) (-1074)
    have half : (2 : ℚ) ^ (-1075 : ℤ) = 1 / 2 * 2 ^ (-1074 : ℤ) := by
      rw [show (-1075 : ℤ) = -1 + -1074 by norm_num, zpow_add₀ (by norm_num)]
      norm_num
    rw [half, ← div_lt_iff₀ (by positivity), ← Nat.cast_ofNat, ← value,
      div_lt_div_iff₀ (by exact_mod_cast under) (by norm_num)] at small
    have natural : (unscale 2 (-1074) numerator denominator).1 * 2 <
        1 * (unscale 2 (-1074) numerator denominator).2 := by exact_mod_cast small
    omega
  rw [ofRatio?_eq_of_isExponentOf _ positive positive' fits, roundAt] at found
  simp only [rounded] at found
  exact filled (parts_of_ofParts? (by simpa using found)).1

end Result

end ConfigHeader.Binary64
