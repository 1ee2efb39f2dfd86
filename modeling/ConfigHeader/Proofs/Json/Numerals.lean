import ConfigHeader.Json.Literal
import ConfigHeader.Proofs.Numeric.Digits
import ConfigHeader.Proofs.Runs

namespace ConfigHeader.Json

/-- No numeral goes on in the rest. -/
def EndsNumeral (rest : List Char) : Prop :=
  ∀ char ∈ rest.head?, char.isDigit = false ∧ char ∉ ['.', 'e', 'E']

/-- A part behind the point. -/
def fractionText : Option (List Char) → List Char
  | none => []
  | some digits => '.' :: digits

/-- An exponent with its sign. -/
def exponentText : Option ℤ → List Char
  | none => []
  | some exponent =>
    'e' :: (if exponent < 0 then '-' else '+') :: Nat.toDigits 10 exponent.natAbs

/-- At least one digit, and nothing else. -/
def AreDigits (digits : List Char) : Prop :=
  digits ≠ [] ∧ ∀ char ∈ digits, char.isDigit = true

theorem areDigits_toDigits (number : ℕ) : AreDigits (Nat.toDigits 10 number) :=
  ⟨Nat.toDigits_ne_nil, fun _ => Nat.isDigit_of_mem_toDigits (by norm_num) (by norm_num)⟩

/-- The parts of a numeral behind its sign. -/
structure Spelling where
  whole : List Char
  fraction : Option (List Char)
  exponent : Option ℤ

namespace Spelling

def text (spelling : Spelling) : List Char :=
  spelling.whole ++ (fractionText spelling.fraction ++ exponentText spelling.exponent)

/-- The decimal that the parts spell. -/
def decimal (spelling : Spelling) : Decimal :=
  ⟨digitsValue (spelling.whole ++ spelling.fraction.getD []),
    spelling.exponent.getD 0 - (spelling.fraction.getD []).length⟩

/-- The parts are digits, of which a `0` before the point stands alone. -/
structure Formed (spelling : Spelling) : Prop where
  whole : AreDigits spelling.whole
  leading : spelling.whole.head? = some '0' → spelling.whole = ['0']
  fraction : ∀ digits ∈ spelling.fraction, AreDigits digits

end Spelling

section Reading

variable {digits rest : List Char}

theorem readDigits?_append (spelled : AreDigits digits)
    (stop : ∀ char ∈ rest.head?, char.isDigit = false) :
    readDigits? (digits ++ rest) = some (digits, rest) := by
  rw [readDigits?, takeWhile_run spelled.2 stop, dropWhile_run spelled.2 stop]
  cases digits with
  | nil => exact absurd rfl spelled.1
  | cons digit digits => rfl

theorem readFraction?_append {fraction : Option (List Char)}
    (spelled : ∀ digits ∈ fraction, AreDigits digits)
    (stop : ∀ char ∈ rest.head?, char.isDigit = false ∧ char ≠ '.') :
    readFraction? (fractionText fraction ++ rest) = some (fraction, rest) := by
  cases fraction with
  | some digits =>
    rw [fractionText, List.cons_append, readFraction?,
      readDigits?_append (spelled digits rfl) fun char first => (stop char first).1]
    rfl
  | none =>
    cases rest with
    | nil => rfl
    | cons char rest =>
      have other : char ≠ '.' := (stop char rfl).2
      simp only [fractionText, List.nil_append]
      rw [readFraction?]
      rintro rest' ⟨⟩
      exact other rfl

theorem readExponent?_append (exponent : Option ℤ) (ends : EndsNumeral rest) :
    readExponent? (exponentText exponent ++ rest) = some (exponent, rest) := by
  cases exponent with
  | none =>
    cases rest with
    | nil => rfl
    | cons char rest =>
      have other := (ends char rfl).2
      simp only [List.mem_cons, List.not_mem_nil, or_false, not_or] at other
      simp [exponentText, readExponent?, other]
  | some exponent =>
    have read := @readDigits?_append _ rest (areDigits_toDigits exponent.natAbs)
      fun char first => (ends char first).1
    simp only [exponentText, List.cons_append, readExponent?]
    by_cases below : exponent < 0
    · simp [below, read, abs_of_neg below]
    · simp [below, read, abs_of_nonneg (not_lt.mp below)]

/-- A numeral is read with all its parts. -/
theorem readNumber?_append (negative : Bool) {spelling : Spelling} (formed : spelling.Formed)
    (ends : EndsNumeral rest) :
    readNumber? ((if negative then ['-'] else []) ++ (spelling.text ++ rest)) =
      (Number.ofNumeral? negative spelling.whole spelling.fraction spelling.exponent).map
        fun number => (number, rest) := by
  obtain ⟨whole, fraction, exponent⟩ := spelling
  obtain ⟨spelled, leading, spelledToo⟩ := formed
  simp only [Spelling.text, List.append_assoc] at *
  have stop : ∀ char ∈ (exponentText exponent ++ rest).head?, char.isDigit = false ∧ char ≠ '.' := by
    intro char first
    cases exponent with
    | none => exact ⟨(ends char first).1, fun point => (ends char first).2 (by simp [point])⟩
    | some exponent =>
      obtain rfl := Option.some.inj first
      decide
  have stopToo : ∀ char ∈ (fractionText fraction ++ (exponentText exponent ++ rest)).head?,
      char.isDigit = false := by
    intro char first
    cases fraction with
    | none => exact (stop char first).1
    | some digits =>
      obtain rfl := Option.some.inj first
      decide
  have plain : ¬ (whole.head? = some '0' ∧ whole ≠ ['0']) := fun zero => zero.2 (leading zero.1)
  have readWhole := readDigits?_append spelled stopToo
  have readFraction := readFraction?_append spelledToo stop
  have readExponent := readExponent?_append exponent ends
  cases negative with
  | true =>
    simp only [readNumber?, if_true, List.cons_append, List.nil_append, readWhole, readFraction,
      readExponent, plain, Option.bind_eq_bind, Option.bind_some, if_false]
    cases Number.ofNumeral? true whole fraction exponent <;> rfl
  | false =>
    obtain ⟨first, others, parts⟩ := List.exists_cons_of_ne_nil spelled.1
    have digit : first ≠ '-' := by
      rintro rfl
      exact absurd (spelled.2 '-' (by simp [parts])) (by decide)
    simp only [readNumber?, Bool.false_eq_true, if_false, List.nil_append]
    split
    · rename_i signed
      rw [parts] at signed
      exact absurd (List.cons.inj signed).1 digit
    · simp only [readWhole, readFraction, readExponent, plain, Option.bind_eq_bind,
        Option.bind_some, if_false]
      cases Number.ofNumeral? false whole fraction exponent <;> rfl

end Reading

namespace Number

theorem ofNumeral?_integer {value : ℤ}
    (bounded : -Int.pow 2 63 ≤ value ∧ value < Int.pow 2 64) :
    ofNumeral? (decide (value < 0)) (Nat.toDigits 10 value.natAbs) none none =
      some (.integer value bounded) := by
  have signed : (if decide (value < 0) = true then -(value.natAbs : ℤ) else value.natAbs) = value := by
    split
    · rename_i below
      have negative := of_decide_eq_true below
      omega
    · rename_i above
      have positive := of_decide_eq_false (Bool.eq_false_of_not_eq_true above)
      omega
  have proper : ¬ (decide (value < 0) = true ∧ value.natAbs = 0) := by
    rw [decide_eq_true_eq]
    omega
  simp only [ofNumeral?, Option.getD_none, List.append_nil, Nat.ofDigitChars_ten_toDigits, signed]
  rw [if_pos ⟨trivial, trivial, proper⟩, dif_pos bounded]

/-- With a point or an exponent a numeral is rounded. -/
theorem ofNumeral?_binary (negative : Bool) {spelling : Spelling}
    (rounded : spelling.fraction ≠ none ∨ spelling.exponent ≠ none) :
    ofNumeral? negative spelling.whole spelling.fraction spelling.exponent =
      (Binary64.ofDecimal? negative spelling.decimal).map .binary := by
  rw [ofNumeral?, if_neg]
  · rfl
  · rintro ⟨noFraction, noExponent, -⟩
    exact rounded.elim (absurd noFraction) (absurd noExponent)

end Number

section Decimal

variable (decimal : Decimal)

/-- The text spells the value of the decimal, with a point or an exponent. -/
def SpelledBy (text : List Char) : Prop :=
  ∃ spelling : Spelling, text = spelling.text ∧ spelling.Formed ∧
    (spelling.fraction ≠ none ∨ spelling.exponent ≠ none) ∧ spelling.decimal.value = decimal.value

theorem areDigits_significantDigits (filled : decimal.digits ≠ 0) :
    AreDigits decimal.significantDigits :=
  ⟨(decimal.significantDigits_ne filled).1, fun _ => decimal.isDigit_of_mem⟩

theorem AreDigits.append {first second : List Char} (left : AreDigits first)
    (right : ∀ char ∈ second, char.isDigit = true) : AreDigits (first ++ second) := by
  refine ⟨by simp [left.1], fun char member => ?_⟩
  rcases List.mem_append.mp member with earlier | later
  · exact left.2 char earlier
  · exact right char later

theorem spelledBy_scientific (filled : decimal.digits ≠ 0) :
    SpelledBy decimal decimal.scientific := by
  have digits := areDigits_significantDigits decimal filled
  have leading := (decimal.significantDigits_ne filled).2
  have value := @Decimal.value_of_significantDigits decimal
  unfold Decimal.scientific
  generalize decimal.significantDigits = significant at *
  obtain ⟨first, others, rfl⟩ := List.exists_cons_of_ne_nil digits.1
  cases others with
  | nil =>
    refine ⟨⟨[first], none, some decimal.leadingExponent⟩, ?_, ?_, ?_, ?_⟩
    · simp [Spelling.text, fractionText, exponentText]
    · exact ⟨digits, fun zero => absurd zero leading, by simp⟩
    · simp
    · exact value (by simp)
  | cons second others =>
    refine ⟨⟨[first], some (second :: others), some decimal.leadingExponent⟩, ?_, ?_, ?_, ?_⟩
    · simp [Spelling.text, fractionText, exponentText]
    · refine ⟨⟨by simp, by simpa using digits.2 first (by simp)⟩, fun zero => absurd zero leading, ?_⟩
      rintro later ⟨⟩
      exact ⟨by simp, fun char member => digits.2 char (List.mem_cons_of_mem _ member)⟩
    · simp
    · refine value ?_
      simp

theorem areDigits_zeros (count : ℕ) : ∀ char ∈ List.replicate count '0', char.isDigit = true := by
  intro char member
  rw [List.eq_of_mem_replicate member]
  decide

section Plain

variable {significant : List Char}

theorem formed_zeros_append (digits : AreDigits significant) (count : ℕ) :
    Spelling.Formed ⟨['0'], some (List.replicate count '0' ++ significant), none⟩ := by
  refine ⟨⟨by simp, by simp⟩, fun _ => rfl, ?_⟩
  rintro later ⟨⟩
  refine ⟨by simp [digits.1], fun char member => ?_⟩
  rcases List.mem_append.mp member with zero | digit
  · exact areDigits_zeros _ char zero
  · exact digits.2 char digit

theorem formed_append_zeros (digits : AreDigits significant)
    (leading : significant.head? ≠ some '0') (count : ℕ) :
    Spelling.Formed ⟨significant ++ List.replicate count '0', some ['0'], none⟩ := by
  refine ⟨digits.append (areDigits_zeros _), fun zero => ?_, ?_⟩
  · rw [List.head?_append_of_ne_nil _ digits.1] at zero
    exact absurd zero leading
  · rintro later ⟨⟩
    exact ⟨by simp, by simp⟩

theorem formed_split (digits : AreDigits significant) (leading : significant.head? ≠ some '0')
    {width : ℕ} (rest : significant.drop (width + 1) ≠ []) :
    Spelling.Formed ⟨significant.take (width + 1), some (significant.drop (width + 1)), none⟩ := by
  refine ⟨⟨by simp [digits.1], fun char member => digits.2 char (List.mem_of_mem_take member)⟩,
    fun zero => ?_, ?_⟩
  · rw [List.head?_take, if_neg (by simp)] at zero
    exact absurd zero leading
  · rintro later ⟨⟩
    exact ⟨rest, fun char member => digits.2 char (List.mem_of_mem_drop member)⟩

end Plain

theorem spelledBy_plain (filled : decimal.digits ≠ 0) : SpelledBy decimal decimal.plain := by
  have digits := areDigits_significantDigits decimal filled
  have leading := (decimal.significantDigits_ne filled).2
  have value := @Decimal.value_of_significantDigits decimal
  have shifted := @Decimal.value_of_zeros decimal
  unfold Decimal.plain
  generalize decimal.significantDigits = significant at *
  generalize decimal.leadingExponent = exponent at *
  simp only
  split
  · rename_i below
    refine ⟨_, ?_, formed_zeros_append digits (-exponent - 1).toNat, by simp, ?_⟩
    · simp [Spelling.text, fractionText, exponentText]
    · have zeros : digitsValue (['0'] ++ (List.replicate (-exponent - 1).toNat '0' ++ significant)) =
          digitsValue significant := by
        rw [← List.append_assoc, ← List.replicate_one, List.replicate_append_replicate,
          digitsValue_zeros_append]
      simp only [Spelling.decimal, Option.getD_some, zeros]
      refine value ?_
      simp
      omega
  · rename_i above
    have width : (exponent.toNat : ℤ) = exponent := Int.toNat_of_nonneg (not_lt.mp above)
    generalize exponent.toNat = power at *
    by_cases short : significant.length ≤ power + 1
    · rw [List.take_of_length_le short, List.drop_of_length_le short]
      refine ⟨_, ?_, formed_append_zeros digits leading (power + 1 - significant.length), by simp, ?_⟩
      · simp [Spelling.text, fractionText, exponentText]
      · have zeros : digitsValue (significant ++ List.replicate (power + 1 - significant.length) '0' ++
            ['0']) = 10 ^ (power + 1 - significant.length + 1) * digitsValue significant := by
          rw [List.append_assoc, ← List.replicate_one, List.replicate_append_replicate,
            digitsValue_append_zeros]
        simp only [Spelling.decimal, Option.getD_some, zeros]
        refine shifted ?_
        simp
        omega
    · have rest : significant.drop (power + 1) ≠ [] := by
        rw [ne_eq, List.drop_eq_nil_iff]
        exact short
      refine ⟨_, ?_, formed_split digits leading rest, by simp, ?_⟩
      · have none : power + 1 - significant.length = 0 := by omega
        simp [Spelling.text, fractionText, exponentText, none, rest]
      · simp only [Spelling.decimal, Option.getD_some, List.take_append_drop]
        refine value ?_
        simp
        omega

theorem spelledBy_numeral (filled : decimal.digits ≠ 0) : SpelledBy decimal decimal.numeral := by
  rw [Decimal.numeral, if_neg filled]
  split
  · exact spelledBy_plain decimal filled
  · exact spelledBy_scientific decimal filled

end Decimal

/-- The numeral of a number spells the number. -/
theorem exists_spelling (number : Number) :
    ∃ (negative : Bool) (spelling : Spelling),
      number.numeral = (if negative then ['-'] else []) ++ spelling.text ∧ spelling.Formed ∧
        Number.ofNumeral? negative spelling.whole spelling.fraction spelling.exponent =
          some number := by
  cases number with
  | integer value bounded =>
    refine ⟨decide (value < 0), ⟨Nat.toDigits 10 value.natAbs, none, none⟩, ?_, ?_,
      Number.ofNumeral?_integer bounded⟩
    · simp [Number.numeral, Spelling.text, fractionText, exponentText]
    · refine ⟨areDigits_toDigits _, fun zero => ?_, by simp⟩
      by_cases filled : value.natAbs = 0
      · rw [filled]
        rfl
      · exact absurd zero (head?_toDigits_ne filled)
  | binary value =>
    by_cases filled : value.significand = 0
    · refine ⟨value.negative, ⟨['0'], some ['0'], none⟩, ?_, ?_, ?_⟩
      · simp [Number.numeral, Binary64.numeral, filled, Spelling.text, fractionText, exponentText]
      · refine ⟨⟨by simp, by simp⟩, fun _ => rfl, ?_⟩
        rintro digits ⟨⟩
        exact ⟨by simp, by simp⟩
      · have zero : Binary64.ofDecimal? value.negative ⟨0, -1⟩ = some (.zero value.negative) := rfl
        rw [Binary64.eq_zero filled] at zero
        exact congrArg (Option.map Number.binary) zero
    · have found := Binary64.ofDecimal?_shortest filled
      have digits : value.shortest.digits ≠ 0 := by
        intro zero
        rw [Binary64.ofDecimal?, if_pos zero] at found
        exact filled (congrArg Binary64.significand (Option.some.inj found)).symm
      obtain ⟨spelling, same, formed, rounded, valued⟩ := spelledBy_numeral value.shortest digits
      refine ⟨value.negative, spelling, ?_, formed, ?_⟩
      · rw [Number.numeral, Binary64.numeral, if_neg filled, same]
      · rw [Number.ofNumeral?_binary _ rounded, Binary64.ofDecimal?_congr valued.symm found filled]
        rfl

/-- A number is read back from its numeral. -/
theorem readNumber?_numeral (number : Number) {rest : List Char} (ends : EndsNumeral rest) :
    readNumber? (number.numeral ++ rest) = some (number, rest) := by
  obtain ⟨negative, spelling, same, formed, found⟩ := exists_spelling number
  rw [same, List.append_assoc, readNumber?_append negative formed ends, found]
  rfl

theorem numeral_eq_cons (number : Number) : ∃ first others, number.numeral = first :: others ∧
    first ∉ [' ', '\t', '\n', '\r', '"', '[', ']', '\x7b', '\x7d', 'n', 't', 'f'] := by
  have marks : ∀ char ∈ [' ', '\t', '\n', '\r', '"', '[', ']', '\x7b', '\x7d', 'n', 't', 'f'],
      char.isDigit = false := by simp
  obtain ⟨negative, spelling, same, formed, -⟩ := exists_spelling number
  obtain ⟨first, others, whole⟩ := List.exists_cons_of_ne_nil formed.whole.1
  cases negative with
  | true => exact ⟨'-', spelling.text, same, by decide⟩
  | false =>
    have begins : number.numeral = first :: (others ++ (fractionText spelling.fraction ++
        exponentText spelling.exponent)) := by
      rw [same, Spelling.text, whole]
      rfl
    refine ⟨first, _, begins, fun mark => ?_⟩
    have digit := formed.whole.2 first (by simp [whole])
    rw [marks first mark] at digit
    cases digit

end ConfigHeader.Json
