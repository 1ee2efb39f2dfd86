import ConfigHeader.Proofs.Numeric.Shortest

namespace ConfigHeader

/-- The number that decimal digits spell. -/
abbrev digitsValue (digits : List Char) : ℕ :=
  Nat.ofDigitChars 10 digits 0

theorem digitsValue_append (first second : List Char) :
    digitsValue (first ++ second) = Nat.ofDigitChars 10 second (digitsValue first) :=
  Nat.ofDigitChars_append 0

theorem digitsValue_append_zeros (digits : List Char) (count : ℕ) :
    digitsValue (digits ++ List.replicate count '0') = 10 ^ count * digitsValue digits := by
  rw [digitsValue_append, Nat.ofDigitChars_replicate_zero]

theorem digitsValue_zeros_append (count : ℕ) (digits : List Char) :
    digitsValue (List.replicate count '0' ++ digits) = digitsValue digits := by
  rw [digitsValue_append, digitsValue, Nat.ofDigitChars_replicate_zero, Nat.mul_zero]

/-- The digits of a number other than zero do not begin with `0`. -/
theorem head?_toDigits_ne {number : ℕ} (filled : number ≠ 0) :
    (Nat.toDigits 10 number).head? ≠ some '0' := by
  induction number using Nat.strong_induction_on with
  | _ number ih =>
    by_cases small : number < 10
    · rw [Nat.toDigits_of_lt_base small]
      interval_cases number
      · exact absurd rfl filled
      all_goals decide
    · rw [Nat.toDigits_of_base_le (by norm_num) (by omega),
        List.head?_append_of_ne_nil _ Nat.toDigits_ne_nil]
      exact ih (number / 10) (by omega) (by omega)

namespace Decimal

variable (decimal : Decimal)

theorem toDigits_eq : ∃ zeros, Nat.toDigits 10 decimal.digits =
    decimal.significantDigits ++ List.replicate zeros '0' := by
  let run := (Nat.toDigits 10 decimal.digits).rtakeWhile (· == '0')
  have zeros : run = List.replicate run.length '0' :=
    List.eq_replicate_of_mem fun digit member => by simpa using List.mem_rtakeWhile_imp member
  refine ⟨run.length, ?_⟩
  rw [← zeros]
  exact List.rdropWhile_append_rtakeWhile.symm

theorem isDigit_of_mem {digit : Char} (member : digit ∈ decimal.significantDigits) :
    digit.isDigit = true := by
  obtain ⟨zeros, parts⟩ := decimal.toDigits_eq
  exact Nat.isDigit_of_mem_toDigits (by norm_num) (by norm_num) (parts ▸ List.mem_append_left _ member)

theorem significantDigits_ne (filled : decimal.digits ≠ 0) :
    decimal.significantDigits ≠ [] ∧ decimal.significantDigits.head? ≠ some '0' := by
  obtain ⟨zeros, parts⟩ := decimal.toDigits_eq
  have first := head?_toDigits_ne filled
  have some_digit : decimal.significantDigits ≠ [] := by
    intro empty
    rw [empty, List.nil_append] at parts
    cases zeros with
    | zero => exact Nat.toDigits_ne_nil parts
    | succ zeros => simp [parts, List.replicate_succ] at first
  refine ⟨some_digit, ?_⟩
  rwa [parts, List.head?_append_of_ne_nil _ some_digit] at first

/-- The value is told by the significant digits and the exponent of the first one. -/
theorem value_eq : decimal.value = digitsValue decimal.significantDigits *
    10 ^ (decimal.leadingExponent + 1 - decimal.significantDigits.length) := by
  obtain ⟨zeros, parts⟩ := decimal.toDigits_eq
  have digits : decimal.digits = 10 ^ zeros * digitsValue decimal.significantDigits := by
    rw [← digitsValue_append_zeros, ← parts, digitsValue, Nat.ofDigitChars_ten_toDigits]
  have exponent : decimal.leadingExponent + 1 - decimal.significantDigits.length =
      zeros + decimal.exponent := by
    simp only [leadingExponent, parts, List.length_append, List.length_replicate, Nat.cast_add]
    ring
  rw [value, exponent, zpow_add₀ (by norm_num), zpow_natCast, digits]
  push_cast
  ring

/-- Zeros behind the significant digits are made up for by the exponent. -/
theorem value_of_zeros {count : ℕ} {exponent : ℤ}
    (shift : exponent + count = decimal.leadingExponent + 1 - decimal.significantDigits.length) :
    value ⟨10 ^ count * digitsValue decimal.significantDigits, exponent⟩ = decimal.value := by
  rw [decimal.value_eq, ← shift, zpow_add₀ (by norm_num), zpow_natCast, value]
  push_cast
  ring

theorem value_of_significantDigits {exponent : ℤ}
    (shift : exponent = decimal.leadingExponent + 1 - decimal.significantDigits.length) :
    value ⟨digitsValue decimal.significantDigits, exponent⟩ = decimal.value := by
  simpa using @value_of_zeros decimal 0 exponent (by simpa using shift)

end Decimal

end ConfigHeader
