import ConfigHeader.Bytes

/-! The bytes of texts. An ASCII byte in the UTF-8 form of a text is a character of the text, so
markup bytes come only from markup characters. -/
namespace ConfigHeader

private theorem ne_of_ascii {byte : UInt8} (ascii : byte < 0x80) {rest base : Nat}
    (high : 128 ≤ base) (low : rest + base < 256) : byte ≠ UInt8.ofNat (rest + base) := by
  rintro rfl
  have bound := UInt8.lt_iff_toNat_lt.mp ascii
  rw [UInt8.toNat_ofNat'] at bound
  have limit : (0x80 : UInt8).toNat = 128 := rfl
  omega

/-- An ASCII byte in the UTF-8 form of a character is the whole of that form. -/
theorem eq_of_mem_utf8EncodeChar {char : Char} {byte : UInt8}
    (member : byte ∈ String.utf8EncodeChar char) (ascii : byte < 0x80) :
    char = Char.ofNat byte.toNat := by
  have apart {rest base : Nat} (high : 128 ≤ base) (low : rest + base < 256) :=
    ne_of_ascii ascii high low
  have later (value : Nat) : byte ≠ UInt8.ofNat (value % 64 + 128) :=
    apart (by omega) (by omega)
  simp only [String.utf8EncodeChar] at member
  split at member
  · obtain rfl := List.mem_singleton.mp member
    rw [UInt8.toNat_ofNat', Nat.mod_eq_of_lt (by omega)]
    exact (Char.ofNat_toNat char).symm
  · split at member
    · simp only [List.mem_cons, List.not_mem_nil, or_false] at member
      rcases member with first | second
      · exact absurd first (apart (by omega) (by omega))
      · exact absurd second (later _)
    · split at member
      · simp only [List.mem_cons, List.not_mem_nil, or_false] at member
        rcases member with first | second | third
        · exact absurd first (apart (by omega) (by omega))
        · exact absurd second (later _)
        · exact absurd third (later _)
      · simp only [List.mem_cons, List.not_mem_nil, or_false] at member
        rcases member with first | second | third | fourth
        · exact absurd first (apart (by omega) (by omega))
        · exact absurd second (later _)
        · exact absurd third (later _)
        · exact absurd fourth (later _)

/-- The form of a character: one byte, or a lead byte and up to three bytes of six bits each. -/
theorem utf8EncodeChar_cases (char : Char) :
    (char.toNat < 0x80 ∧ String.utf8EncodeChar char = [UInt8.ofNat char.toNat]) ∨
    (0x80 ≤ char.toNat ∧ char.toNat < 0x800 ∧ String.utf8EncodeChar char =
      [UInt8.ofNat (char.toNat / 64 + 0xc0), UInt8.ofNat (char.toNat % 64 + 0x80)]) ∨
    (0x800 ≤ char.toNat ∧ char.toNat < 0x10000 ∧ String.utf8EncodeChar char =
      [UInt8.ofNat (char.toNat / 4096 + 0xe0), UInt8.ofNat (char.toNat / 64 % 64 + 0x80),
        UInt8.ofNat (char.toNat % 64 + 0x80)]) ∨
    (0x10000 ≤ char.toNat ∧ char.toNat < 0x110000 ∧ String.utf8EncodeChar char =
      [UInt8.ofNat (char.toNat / 262144 + 0xf0), UInt8.ofNat (char.toNat / 4096 % 64 + 0x80),
        UInt8.ofNat (char.toNat / 64 % 64 + 0x80), UInt8.ofNat (char.toNat % 64 + 0x80)]) := by
  have limit : char.toNat < 0x110000 := by
    have valid := char.valid
    unfold UInt32.isValidChar Nat.isValidChar at valid
    rw [Char.toNat]
    omega
  simp only [String.utf8EncodeChar]
  rw [← Char.toNat]
  generalize char.toNat = value at *
  by_cases one : value < 0x80
  · left
    rw [if_pos (by omega)]
    exact ⟨one, rfl⟩
  · right
    rw [if_neg (by omega)]
    by_cases two : value < 0x800
    · left
      rw [if_pos (by omega), Nat.mod_eq_of_lt (show value / 64 < 0x20 by omega)]
      exact ⟨by omega, two, rfl⟩
    · right
      rw [if_neg (by omega)]
      by_cases three : value < 0x10000
      · left
        rw [if_pos (by omega), Nat.mod_eq_of_lt (show value / 4096 < 0x10 by omega)]
        exact ⟨by omega, three, rfl⟩
      · right
        rw [if_neg (by omega), Nat.mod_eq_of_lt (show value / 262144 < 0x08 by omega)]
        exact ⟨by omega, limit, rfl⟩

theorem textBytes_append (first second : String) :
    textBytes (first ++ second) = textBytes first ++ textBytes second := by
  simp [textBytes]

theorem mem_textBytes {text : String} {byte : UInt8} (member : byte ∈ textBytes text)
    (ascii : byte < 0x80) : Char.ofNat byte.toNat ∈ text.toList := by
  obtain ⟨char, inside, encoded⟩ := List.mem_flatMap.mp member
  rw [← eq_of_mem_utf8EncodeChar encoded ascii]
  exact inside

theorem newline_not_mem_textBytes {text : String} (absent : '\n' ∉ text.toList) :
    Byte.newline ∉ textBytes text :=
  fun member => absent (mem_textBytes member (by decide))

theorem hash_not_mem_textBytes {text : String} (absent : '#' ∉ text.toList) :
    Byte.hash ∉ textBytes text :=
  fun member => absent (mem_textBytes member (by decide))

theorem atSign_not_mem_textBytes {text : String} (absent : '@' ∉ text.toList) :
    Byte.atSign ∉ textBytes text :=
  fun member => absent (mem_textBytes member (by decide))

end ConfigHeader
