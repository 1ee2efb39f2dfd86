import ConfigHeader.Json.Literal

namespace ConfigHeader.Json

theorem hexDigit?_digitChar : ∀ digit < 16, hexDigit? (Nat.digitChar digit) = some digit := by
  decide

/-- Two hexadecimal digits spell a control character. -/
theorem hexUnit?_control {code : Nat} (control : code < 32) :
    hexUnit? '0' '0' (Nat.digitChar (code / 16)) (Nat.digitChar (code % 16)) = some code := by
  have high := hexDigit?_digitChar (code / 16) (by omega)
  have low := hexDigit?_digitChar (code % 16) (by omega)
  have zero : hexDigit? '0' = some 0 := rfl
  simp only [hexUnit?, high, low, zero, Option.bind_eq_bind, Option.bind_some, Option.pure_def,
    Option.some.injEq]
  omega

theorem readText?_escapeChar (char : Char) (rest : List Char) :
    readText? (escapeChar char ++ rest) =
      (readText? rest).map fun (text, rest) => (char :: text, rest) := by
  by_cases lettered : char ∈ ['"', '\\', '\x08', '\x0c', '\n', '\r', '\t']
  · simp only [List.mem_cons, List.not_mem_nil, or_false] at lettered
    rcases lettered with rfl | rfl | rfl | rfl | rfl | rfl | rfl <;>
      simp [escapeChar, readText?, unescape?]
  simp only [List.mem_cons, List.not_mem_nil, or_false, not_or] at lettered
  by_cases control : char < ' '
  · have code : char.toNat < 32 := control
    have plain : isPlainUnit char.toNat = true := by
      simp [isPlainUnit]
      omega
    simp only [escapeChar, lettered, control, if_true, if_false, List.cons_append, List.nil_append]
    rw [readText?, hexUnit?_control code]
    simp only [plain, if_true, Char.ofNat_toNat]
  · simp only [escapeChar, lettered, control, if_false, List.cons_append, List.nil_append]
    rw [readText?]
    · simp [lettered, control]
    all_goals simp_all

/-- A text is read back from between its quotes. -/
theorem readText?_quoted (text rest : List Char) :
    readText? (text.flatMap escapeChar ++ '"' :: rest) = some (text, rest) := by
  induction text with
  | nil => simp [readText?]
  | cons char text ih =>
    rw [List.flatMap_cons, List.append_assoc, readText?_escapeChar, ih]
    rfl

end ConfigHeader.Json
