import ConfigHeader.Check.Value
import ConfigHeader.Proofs.Json.Numerals

namespace ConfigHeader.Check

open Json (AreDigits)

/-- Digits, perhaps with a point that has digits on both sides. -/
inductive Magnitude : List Char → Prop where
  | whole {digits : List Char} (spelled : AreDigits digits) : Magnitude digits
  | pointed {digits decimals : List Char} (spelled : AreDigits digits)
    (fraction : AreDigits decimals) : Magnitude (digits ++ '.' :: decimals)

/-- A magnitude, perhaps with one sign before it. -/
inductive DecimalLiteral : List Char → Prop where
  | plain {chars : List Char} (magnitude : Magnitude chars) : DecimalLiteral chars
  | signed {char : Char} {chars : List Char} (sign : char = '+' ∨ char = '-')
    (magnitude : Magnitude chars) : DecimalLiteral (char :: chars)

/-- A sign, and a point that has digits behind it but none before it. -/
inductive SignedFraction : List Char → Prop where
  | mk {char : Char} {decimals : List Char} (sign : char = '+' ∨ char = '-')
    (fraction : AreDigits decimals) : SignedFraction (char :: '.' :: decimals)

variable {char : Char} {chars rest : List Char} {whole pointSeen digitSeen : Bool}

/-- A point with digits behind it, and before it perhaps digits and nothing else. -/
def Pointed (chars : List Char) : Prop :=
  ∃ digits decimals, chars = digits ++ '.' :: decimals ∧
    (∀ char ∈ digits, char.isDigit = true) ∧ AreDigits decimals

theorem pointed_digit_cons (digit : char.isDigit = true) :
    Pointed (char :: rest) ↔ Pointed rest := by
  constructor
  · rintro ⟨digits, decimals, parts, run, fraction⟩
    cases digits with
    | nil =>
      have point := (List.cons.inj parts).1
      simp [point, Char.isDigit] at digit
    | cons first digits =>
      have later := (List.cons.inj parts).2
      exact ⟨digits, decimals, later, fun char member => run char (by simp [member]), fraction⟩
  · rintro ⟨digits, decimals, rfl, run, fraction⟩
    exact ⟨char :: digits, decimals, rfl, by simpa [digit] using run, fraction⟩

theorem pointed_cons_of_not_digit (digit : char.isDigit = false) :
    Pointed (char :: rest) ↔ char = '.' ∧ AreDigits rest := by
  constructor
  · rintro ⟨digits, decimals, parts, run, fraction⟩
    cases digits with
    | nil =>
      obtain ⟨point, later⟩ := List.cons.inj parts
      exact ⟨point, later ▸ fraction⟩
    | cons first digits =>
      have same := (List.cons.inj parts).1
      simp [same, run first] at digit
  · rintro ⟨rfl, fraction⟩
    exact ⟨[], rest, rfl, by simp, fraction⟩

theorem magnitude_iff :
    Magnitude chars ↔ AreDigits chars ∨ Pointed chars ∧ chars.head? ≠ some '.' := by
  constructor
  · intro magnitude
    cases magnitude with
    | whole spelled => exact .inl spelled
    | @pointed digits decimals spelled fraction =>
      refine .inr ⟨⟨digits, decimals, rfl, spelled.2, fraction⟩, ?_⟩
      rw [List.head?_append_of_ne_nil _ spelled.1]
      intro first
      have digit := spelled.2 '.' (List.mem_of_mem_head? first)
      cases digit
  · rintro (spelled | ⟨⟨digits, decimals, rfl, run, fraction⟩, first⟩)
    · exact .whole spelled
    · refine .pointed ⟨?_, run⟩ fraction
      rintro rfl
      exact first rfl

theorem magnitude_cons_iff :
    Magnitude (char :: rest) ↔
      char.isDigit = true ∧ ((∀ char ∈ rest, char.isDigit = true) ∨ Pointed rest) := by
  rw [magnitude_iff]
  cases digit : char.isDigit with
  | true =>
    have point : char ≠ '.' := by
      rintro rfl
      cases digit
    simp [AreDigits, digit, point, pointed_digit_cons digit]
  | false =>
    have point : Pointed (char :: rest) → char = '.' :=
      fun pointed => ((pointed_cons_of_not_digit digit).mp pointed).1
    simpa [AreDigits, digit] using point

/-- What may stand behind a sign is a magnitude, or a magnitude that lacks the digits before its
point. -/
theorem areDigits_or_pointed_iff :
    AreDigits chars ∨ Pointed chars ↔
      Magnitude chars ∨ ∃ decimals, chars = '.' :: decimals ∧ AreDigits decimals := by
  rw [magnitude_iff]
  constructor
  · rintro (spelled | pointed)
    · exact .inl (.inl spelled)
    · by_cases first : chars.head? = some '.'
      · obtain ⟨decimals, rfl⟩ := List.head?_eq_some_iff.mp first
        exact .inr ⟨decimals, rfl, ((pointed_cons_of_not_digit rfl).mp pointed).2⟩
      · exact .inl (.inr ⟨pointed, first⟩)
  · rintro ((spelled | ⟨pointed, -⟩) | ⟨decimals, rfl, fraction⟩)
    · exact .inl spelled
    · exact .inr pointed
    · exact .inr ((pointed_cons_of_not_digit rfl).mpr ⟨rfl, fraction⟩)

theorem not_isDigit_of_sign (sign : char = '+' ∨ char = '-') : char.isDigit = false := by
  rcases sign with rfl | rfl <;> rfl

theorem decimalLiteral_cons_iff :
    DecimalLiteral (char :: rest) ↔
      Magnitude (char :: rest) ∨ (char = '+' ∨ char = '-') ∧ Magnitude rest := by
  constructor
  · intro literal
    cases literal with
    | plain magnitude => exact .inl magnitude
    | signed sign magnitude => exact .inr ⟨sign, magnitude⟩
  · rintro (magnitude | ⟨sign, magnitude⟩)
    · exact .plain magnitude
    · exact .signed sign magnitude

theorem signedFraction_cons_iff :
    SignedFraction (char :: rest) ↔
      (char = '+' ∨ char = '-') ∧ ∃ decimals, rest = '.' :: decimals ∧ AreDigits decimals := by
  constructor
  · intro fraction
    cases fraction with
    | @mk char decimals sign spelled => exact ⟨sign, decimals, rfl, spelled⟩
  · rintro ⟨sign, decimals, rfl, spelled⟩
    exact .mk sign spelled

/-- Where a sign stands in the place of the digits before the point, the text is no literal. -/
theorem SignedFraction.not_decimalLiteral (fraction : SignedFraction chars) :
    ¬ DecimalLiteral chars := by
  intro literal
  cases fraction with
  | mk sign spelled =>
    cases literal with
    | plain magnitude =>
      have digit := (magnitude_cons_iff.mp magnitude).1
      simp [not_isDigit_of_sign sign] at digit
    | signed _ magnitude =>
      have digit := (magnitude_cons_iff.mp magnitude).1
      cases digit

namespace isNumeral

theorem scan_digit (digit : char.isDigit = true) :
    scan whole pointSeen digitSeen (char :: rest) = scan false pointSeen true rest := by
  simp [scan, digit]

theorem scan_point :
    scan whole pointSeen digitSeen ('.' :: rest) =
      (!pointSeen && !whole && !rest.isEmpty && scan false true digitSeen rest) := by
  simp [scan, Char.isDigit]

theorem scan_sign (sign : char = '+' ∨ char = '-') :
    scan whole pointSeen digitSeen (char :: rest) =
      (whole && scan false pointSeen digitSeen rest) := by
  rcases sign with rfl | rfl <;> simp [scan, Char.isDigit]

theorem scan_other (digit : char.isDigit = false) (point : char ≠ '.')
    (sign : ¬ (char = '+' ∨ char = '-')) :
    scan whole pointSeen digitSeen (char :: rest) = false := by
  simp [scan, digit, point, sign]

/-- Inside a text nothing but a digit goes on, or the first point if something follows it. -/
theorem scan_inside (digit : char.isDigit = false) :
    scan false pointSeen digitSeen (char :: rest) = true ↔
      char = '.' ∧ pointSeen = false ∧ rest ≠ [] ∧ scan false true digitSeen rest = true := by
  by_cases point : char = '.'
  · subst point
    simp [scan_point, and_assoc]
  · by_cases sign : char = '+' ∨ char = '-'
    · simp [scan_sign sign, point]
    · simp [scan_other digit point sign, point]

/-- Behind a point all is digits, and somewhere in the text there is one. -/
theorem scan_behindPoint_iff :
    scan false true digitSeen rest = true ↔
      (∀ char ∈ rest, char.isDigit = true) ∧ (digitSeen = true ∨ rest ≠ []) := by
  induction rest generalizing digitSeen with
  | nil => simp [scan]
  | cons char rest ih =>
    cases digit : char.isDigit with
    | true => simp [scan_digit digit, ih, digit]
    | false => simp [scan_inside digit, digit]

/-- Where no point was seen all is digits, or a point comes with digits behind it. -/
theorem scan_beforePoint_iff :
    scan false false digitSeen rest = true ↔
      ((∀ char ∈ rest, char.isDigit = true) ∧ (digitSeen = true ∨ rest ≠ [])) ∨ Pointed rest := by
  induction rest generalizing digitSeen with
  | nil => simp [scan, Pointed]
  | cons char rest ih =>
    cases digit : char.isDigit with
    | true => simp [scan_digit digit, ih, digit, pointed_digit_cons digit]
    | false =>
      have mixed : ¬ ∀ other ∈ char :: rest, other.isDigit = true := by simp [digit]
      rw [scan_inside digit, pointed_cons_of_not_digit digit, scan_behindPoint_iff]
      simp only [mixed, false_and, false_or, true_and, AreDigits]
      exact and_congr_right fun _ => and_congr_right fun filled => by simp [filled]

end isNumeral

/-- A text is taken for a numeral exactly if it is a decimal literal, or a sign with a point right
behind it and digits behind that. -/
theorem isNumeral_iff (text : String) :
    isNumeral text = true ↔ DecimalLiteral text.toList ∨ SignedFraction text.toList := by
  rw [isNumeral]
  cases text.toList with
  | nil =>
    refine iff_of_false (by simp [isNumeral.scan]) ?_
    rintro (literal | fraction)
    · cases literal with
      | plain magnitude => simp [magnitude_iff, AreDigits, Pointed] at magnitude
    · cases fraction
  | cons char rest =>
    rw [decimalLiteral_cons_iff, signedFraction_cons_iff]
    -- the scan is told only at the first character that nothing stands before it
    by_cases sign : char = '+' ∨ char = '-'
    · have digit := not_isDigit_of_sign sign
      rw [isNumeral.scan_sign sign, Bool.true_and, isNumeral.scan_beforePoint_iff]
      simpa [sign, digit, magnitude_cons_iff, AreDigits, and_comm] using
        @areDigits_or_pointed_iff rest
    · simp only [sign, false_and, or_false]
      rw [magnitude_cons_iff]
      cases digit : char.isDigit with
      | true => simp [isNumeral.scan_digit digit, isNumeral.scan_beforePoint_iff]
      | false =>
        by_cases point : char = '.'
        · simp [point, isNumeral.scan_point]
        · simp [isNumeral.scan_other digit point sign]

/-- A sign in the place of the digits before the point is enough, though no literal begins so. -/
theorem not_isNumeral_iff_decimalLiteral :
    ¬ (isNumeral "-.5" = true ↔ DecimalLiteral "-.5".toList) := by
  have digits : AreDigits ['5'] := ⟨by simp, by simp [Char.isDigit]⟩
  have fraction : SignedFraction "-.5".toList := .mk (.inr rfl) digits
  have taken : isNumeral "-.5" = true := by decide
  exact fun same => fraction.not_decimalLiteral (same.mp taken)

end ConfigHeader.Check
