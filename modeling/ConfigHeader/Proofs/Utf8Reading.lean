import ConfigHeader.Proofs.TextBytes
import ConfigHeader.Text.Utf8
import Mathlib.Data.List.Basic
import Mathlib.Data.List.TakeWhile

namespace ConfigHeader.Utf8

variable {char : Char} {content rest : Bytes} {index width : Nat}

/-- A byte that can stand behind the second byte of a character. -/
def IsTail (byte : UInt8) : Prop :=
  0x80 ≤ byte.toNat ∧ byte.toNat ≤ 0xbf

private theorem decide_isTail (byte : UInt8) :
    (decide (0x80 ≤ byte) && decide (byte ≤ 0xbf)) = true ↔ IsTail byte := by
  rw [Bool.and_eq_true, decide_eq_true_iff, decide_eq_true_iff, UInt8.le_iff_toNat_le,
    UInt8.le_iff_toNat_le]
  rfl

namespace Lead

variable {lead : Lead} {second : UInt8} {later more : Bytes}

theorem continuation_append (low : lead.low ≤ second) (high : second ≤ lead.high)
    (tails : ∀ byte ∈ later, IsTail byte) (length : later.length + 1 = lead.tail) :
    lead.continuation (second :: later ++ more) = second :: later := by
  have whole : later.takeWhile (fun byte => 0x80 ≤ byte && byte ≤ 0xbf) = later :=
    List.takeWhile_eq_self_iff.mpr fun byte member => (decide_isTail byte).mpr (tails byte member)
  rw [continuation, ← length, List.cons_append, List.take_succ_cons, List.take_left]
  simp [low, high, whole]

/-- A continuation of full length begins with bytes of the announced form. -/
theorem exists_of_length_continuation (several : lead.tail ≠ 0)
    (whole : (lead.continuation rest).length = lead.tail) :
    ∃ second later more, rest = second :: later ++ more ∧ lead.low ≤ second ∧
      second ≤ lead.high ∧ (∀ byte ∈ later, IsTail byte) ∧ later.length + 1 = lead.tail ∧
      lead.continuation rest = second :: later := by
  cases taken : rest.take lead.tail with
  | nil =>
    rw [continuation, taken] at whole
    exact absurd whole.symm several
  | cons second later =>
    have held : lead.continuation rest =
        if (decide (lead.low ≤ second) && decide (second ≤ lead.high)) = true then
          second :: later.takeWhile fun byte => 0x80 ≤ byte && byte ≤ 0xbf
        else [] := by rw [continuation, taken]
    rw [held] at whole
    by_cases bounds : (decide (lead.low ≤ second) && decide (second ≤ lead.high)) = true
    · rw [if_pos bounds, List.length_cons] at whole
      have limit := congrArg List.length taken
      have run := (later.takeWhile_prefix fun byte => 0x80 ≤ byte && byte ≤ 0xbf).length_le
      rw [List.length_take, List.length_cons] at limit
      have same := (later.takeWhile_prefix fun byte =>
        0x80 ≤ byte && byte ≤ 0xbf).eq_of_length (by omega)
      have parts := List.take_append_drop lead.tail rest
      rw [taken] at parts
      rw [Bool.and_eq_true, decide_eq_true_iff, decide_eq_true_iff] at bounds
      refine ⟨second, later, rest.drop lead.tail, parts.symm, bounds.1, bounds.2, ?_, ?_, ?_⟩
      · intro byte member
        rw [← same] at member
        have test := List.mem_takeWhile_imp member
        exact (decide_isTail byte).mp test
      · rw [← same]
        exact whole
      · rw [held, if_pos (by simpa using bounds), same]
    · rw [if_neg bounds] at whole
      exact absurd whole.symm several

end Lead

private theorem toNat_ofNat_of_lt {value : Nat} (small : value < 256) :
    (UInt8.ofNat value).toNat = value := by
  rw [UInt8.toNat_ofNat', Nat.mod_eq_of_lt small]

private theorem isTail_ofNat (value : Nat) : IsTail (UInt8.ofNat (value % 64 + 0x80)) := by
  rw [IsTail, toNat_ofNat_of_lt (by omega)]
  omega

/-- What a first byte announces, told by its value. -/
theorem lead?_eq (byte : UInt8) : lead? byte =
    if byte.toNat < 0xc2 then none
    else if byte.toNat < 0xe0 then some ⟨1, byte.toNat - 0xc0, 0x80, 0xbf⟩
    else if byte.toNat < 0xf0 then
      some ⟨2, byte.toNat - 0xe0, if byte.toNat = 0xe0 then 0xa0 else 0x80,
        if byte.toNat = 0xed then 0x9f else 0xbf⟩
    else if byte.toNat < 0xf5 then
      some ⟨3, byte.toNat - 0xf0, if byte.toNat = 0xf0 then 0x90 else 0x80,
        if byte.toNat = 0xf4 then 0x8f else 0xbf⟩
    else none := by
  simp only [lead?, UInt8.lt_iff_toNat_lt, ← UInt8.toNat_inj, UInt8.reduceToNat]

theorem Lead.tail_ne_zero {byte : UInt8} {lead : Lead} (announced : lead? byte = some lead) :
    lead.tail ≠ 0 := by
  rw [lead?_eq] at announced
  split at announced
  · cases announced
  split at announced
  · simp [← Option.some.inj announced]
  split at announced
  · simp [← Option.some.inj announced]
  split at announced
  · simp [← Option.some.inj announced]
  · cases announced

/-- The value that a lead byte and the bytes behind it spell. -/
def spelled (lead : Lead) (continuation : Bytes) : Nat :=
  continuation.foldl (fun bits byte => bits * 64 + byte.toNat % 64) lead.bits

/-- The bytes of a character of several bytes, as they are announced by the first one. -/
structure Announced (lead : Lead) (first second : UInt8) (later : Bytes) : Prop where
  several : 0x80 ≤ first.toNat
  announced : lead? first = some lead
  low : lead.low.toNat ≤ second.toNat
  high : second.toNat ≤ lead.high.toNat
  tails : ∀ byte ∈ later, IsTail byte
  length : later.length + 1 = lead.tail

theorem Announced.front? {lead : Lead} {first second : UInt8} {later : Bytes}
    (form : Announced lead first second later) (rest : Bytes) :
    front? (first :: second :: later ++ rest) =
      .ok (Char.ofNat (spelled lead (second :: later)), lead.tail + 1) := by
  have notAscii : ¬ first < 0x80 := by
    rw [UInt8.lt_iff_toNat_lt]
    exact Nat.not_lt.mpr form.several
  have whole := @Lead.continuation_append lead second later rest
    (UInt8.le_iff_toNat_le.mpr form.low) (UInt8.le_iff_toNat_le.mpr form.high) form.tails form.length
  rw [List.cons_append, Utf8.front?, if_neg notAscii, form.announced]
  simp only [whole]
  rw [if_pos (by simpa using form.length), spelled]

private theorem toNat_tail (value : Nat) :
    (UInt8.ofNat (value % 64 + 0x80)).toNat = value % 64 + 0x80 :=
  toNat_ofNat_of_lt (by omega)

private theorem spelled_tail (tail bits digit : Nat) (low high : UInt8) (rest : Bytes) :
    spelled ⟨tail, bits, low, high⟩ (UInt8.ofNat (digit % 64 + 0x80) :: rest) =
      spelled ⟨tail, bits * 64 + digit % 64, low, high⟩ rest := by
  have digits : (digit % 64 + 0x80) % 64 = digit % 64 := by omega
  rw [spelled, List.foldl_cons, toNat_tail, digits]
  rfl

private theorem spelled_nil (tail bits : Nat) (low high : UInt8) :
    spelled ⟨tail, bits, low, high⟩ [] = bits := rfl

section Shapes

variable {value : Nat}

private theorem announced_two (above : 0x80 ≤ value) (below : value < 0x800) :
    Announced ⟨1, value / 64, 0x80, 0xbf⟩ (UInt8.ofNat (value / 64 + 0xc0))
      (UInt8.ofNat (value % 64 + 0x80)) [] where
  several := by
    rw [toNat_ofNat_of_lt (by omega)]
    omega
  announced := by
    rw [lead?_eq, toNat_ofNat_of_lt (by omega), if_neg (by omega), if_pos (by omega),
      Nat.add_sub_cancel]
  low := (isTail_ofNat value).1
  high := (isTail_ofNat value).2
  tails := by simp
  length := rfl

private theorem announced_three (above : 0x800 ≤ value) (below : value < 0x10000)
    (valid : value < 0xd800 ∨ 0xdfff < value) :
    Announced ⟨2, value / 4096, if value / 4096 + 0xe0 = 0xe0 then 0xa0 else 0x80,
        if value / 4096 + 0xe0 = 0xed then 0x9f else 0xbf⟩ (UInt8.ofNat (value / 4096 + 0xe0))
      (UInt8.ofNat (value / 64 % 64 + 0x80)) [UInt8.ofNat (value % 64 + 0x80)] where
  several := by
    rw [toNat_ofNat_of_lt (by omega)]
    omega
  announced := by
    rw [lead?_eq, toNat_ofNat_of_lt (by omega), if_neg (by omega), if_neg (by omega),
      if_pos (by omega), Nat.add_sub_cancel]
  low := by
    rw [toNat_tail]
    dsimp only
    split
    · exact Nat.add_le_add_right (show 0x20 ≤ value / 64 % 64 by omega) 0x80
    · exact Nat.le_add_left 0x80 _
  high := by
    rw [toNat_tail]
    dsimp only
    split
    · exact Nat.add_le_add_right (show value / 64 % 64 ≤ 0x1f by omega) 0x80
    · exact Nat.add_le_add_right (show value / 64 % 64 ≤ 0x3f by omega) 0x80
  tails := List.forall_mem_singleton.mpr (isTail_ofNat value)
  length := rfl

private theorem announced_four (above : 0x10000 ≤ value) (below : value < 0x110000) :
    Announced ⟨3, value / 262144, if value / 262144 + 0xf0 = 0xf0 then 0x90 else 0x80,
        if value / 262144 + 0xf0 = 0xf4 then 0x8f else 0xbf⟩ (UInt8.ofNat (value / 262144 + 0xf0))
      (UInt8.ofNat (value / 4096 % 64 + 0x80))
      [UInt8.ofNat (value / 64 % 64 + 0x80), UInt8.ofNat (value % 64 + 0x80)] where
  several := by
    rw [toNat_ofNat_of_lt (by omega)]
    omega
  announced := by
    rw [lead?_eq, toNat_ofNat_of_lt (by omega), if_neg (by omega), if_neg (by omega),
      if_neg (by omega), if_pos (by omega), Nat.add_sub_cancel]
  low := by
    rw [toNat_tail]
    dsimp only
    split
    · exact Nat.add_le_add_right (show 0x10 ≤ value / 4096 % 64 by omega) 0x80
    · exact Nat.le_add_left 0x80 _
  high := by
    rw [toNat_tail]
    dsimp only
    split
    · exact Nat.add_le_add_right (show value / 4096 % 64 ≤ 0x0f by omega) 0x80
    · exact Nat.add_le_add_right (show value / 4096 % 64 ≤ 0x3f by omega) 0x80
  tails := List.forall_mem_cons.mpr
    ⟨isTail_ofNat (value / 64), List.forall_mem_singleton.mpr (isTail_ofNat value)⟩
  length := rfl

end Shapes

/-- The form of a character of several bytes is announced by its first byte. -/
theorem announced_utf8EncodeChar (several : 0x80 ≤ char.toNat) :
    ∃ lead first second later, String.utf8EncodeChar char = first :: second :: later ∧
      Announced lead first second later ∧ spelled lead (second :: later) = char.toNat := by
  have valid : char.toNat < 0xd800 ∨ 0xdfff < char.toNat := by
    have inside := char.valid
    unfold UInt32.isValidChar Nat.isValidChar at inside
    rw [Char.toNat]
    omega
  rcases utf8EncodeChar_cases char with
    ⟨bound, -⟩ | ⟨above, below, form⟩ | ⟨above, below, form⟩ | ⟨above, below, form⟩
  · omega
  · refine ⟨_, _, _, _, form, announced_two above below, ?_⟩
    rw [spelled_tail, spelled_nil]
    omega
  · refine ⟨_, _, _, _, form, announced_three above below valid, ?_⟩
    rw [spelled_tail, spelled_tail, spelled_nil]
    omega
  · refine ⟨_, _, _, _, form, announced_four above below, ?_⟩
    rw [spelled_tail, spelled_tail, spelled_tail, spelled_nil]
    omega

private theorem ofNat_eq {value : Nat} {byte : UInt8} (same : value = byte.toNat) :
    UInt8.ofNat value = byte := by
  rw [same, UInt8.ofNat_toNat]

private theorem toNat_charOfNat {value : Nat}
    (valid : value < 0xd800 ∨ 0xdfff < value ∧ value < 0x110000) :
    (Char.ofNat value).toNat = value := by
  rw [Char.ofNat, dif_pos valid]
  rfl

private theorem encode_two {value : Nat} (low : 0x80 ≤ value) (high : value < 0x800) :
    String.utf8EncodeChar (Char.ofNat value) =
      [UInt8.ofNat (value / 64 + 0xc0), UInt8.ofNat (value % 64 + 0x80)] := by
  have same := toNat_charOfNat (.inl (show value < 0xd800 by omega))
  rcases utf8EncodeChar_cases (Char.ofNat value) with
    ⟨bound, -⟩ | ⟨-, -, form⟩ | ⟨bound, -⟩ | ⟨bound, -⟩
  · omega
  · rw [form, same]
  · omega
  · omega

private theorem encode_three {value : Nat} (low : 0x800 ≤ value) (high : value < 0x10000)
    (valid : value < 0xd800 ∨ 0xdfff < value) :
    String.utf8EncodeChar (Char.ofNat value) =
      [UInt8.ofNat (value / 4096 + 0xe0), UInt8.ofNat (value / 64 % 64 + 0x80),
        UInt8.ofNat (value % 64 + 0x80)] := by
  have same := toNat_charOfNat (valid.imp_right fun above => ⟨above, by omega⟩)
  rcases utf8EncodeChar_cases (Char.ofNat value) with
    ⟨bound, -⟩ | ⟨-, bound, -⟩ | ⟨-, -, form⟩ | ⟨bound, -⟩
  · omega
  · omega
  · rw [form, same]
  · omega

private theorem encode_four {value : Nat} (low : 0x10000 ≤ value) (high : value < 0x110000) :
    String.utf8EncodeChar (Char.ofNat value) =
      [UInt8.ofNat (value / 262144 + 0xf0), UInt8.ofNat (value / 4096 % 64 + 0x80),
        UInt8.ofNat (value / 64 % 64 + 0x80), UInt8.ofNat (value % 64 + 0x80)] := by
  have same := toNat_charOfNat (.inr ⟨show 0xdfff < value by omega, high⟩)
  rcases utf8EncodeChar_cases (Char.ofNat value) with
    ⟨bound, -⟩ | ⟨-, bound, -⟩ | ⟨-, bound, -⟩ | ⟨-, -, form⟩
  · omega
  · omega
  · omega
  · rw [form, same]

/-- What is announced and follows is the form of a character. -/
theorem Announced.encode_spelled {lead : Lead} {first second : UInt8} {later : Bytes}
    (form : Announced lead first second later) :
    String.utf8EncodeChar (Char.ofNat (spelled lead (second :: later))) =
      first :: second :: later := by
  obtain ⟨several, announced, low, high, tails, length⟩ := form
  rw [lead?_eq] at announced
  split at announced
  · cases announced
  split at announced
  · obtain rfl := Option.some.inj announced
    obtain rfl := List.eq_nil_of_length_eq_zero (Nat.succ.inj length)
    simp only [UInt8.reduceToNat] at low high
    simp only [spelled, List.foldl_cons, List.foldl_nil]
    rw [encode_two (by omega) (by omega)]
    simp only [List.cons.injEq, and_true]
    exact ⟨ofNat_eq (by omega), ofNat_eq (by omega)⟩
  split at announced
  · obtain rfl := Option.some.inj announced
    obtain ⟨third, rfl⟩ := List.length_eq_one_iff.mp (Nat.succ.inj length)
    obtain ⟨thirdLow, thirdHigh⟩ := tails third (by simp)
    simp only [apply_ite UInt8.toNat, UInt8.reduceToNat] at low high
    simp only [spelled, List.foldl_cons, List.foldl_nil]
    have lowest : 0x80 ≤ second.toNat ∧ (first.toNat = 0xe0 → 0xa0 ≤ second.toNat) := by
      split at low <;> omega
    have highest : second.toNat ≤ 0xbf ∧ (first.toNat = 0xed → second.toNat ≤ 0x9f) := by
      split at high <;> omega
    clear low high announced
    rw [encode_three (by omega) (by omega) (by omega)]
    simp only [List.cons.injEq, and_true]
    exact ⟨ofNat_eq (by omega), ofNat_eq (by omega), ofNat_eq (by omega)⟩
  split at announced
  · obtain rfl := Option.some.inj announced
    obtain ⟨third, fourth, rfl⟩ := List.length_eq_two.mp (Nat.succ.inj length)
    obtain ⟨thirdLow, thirdHigh⟩ := tails third (by simp)
    obtain ⟨fourthLow, fourthHigh⟩ := tails fourth (by simp)
    simp only [apply_ite UInt8.toNat, UInt8.reduceToNat] at low high
    simp only [spelled, List.foldl_cons, List.foldl_nil]
    have lowest : 0x80 ≤ second.toNat ∧ (first.toNat = 0xf0 → 0x90 ≤ second.toNat) := by
      split at low <;> omega
    have highest : second.toNat ≤ 0xbf ∧ (first.toNat = 0xf4 → second.toNat ≤ 0x8f) := by
      split at high <;> omega
    clear low high announced
    rw [encode_four (by omega) (by omega)]
    simp only [List.cons.injEq, and_true]
    exact ⟨ofNat_eq (by omega), ofNat_eq (by omega), ofNat_eq (by omega), ofNat_eq (by omega)⟩
  · cases announced

theorem utf8EncodeChar_of_ascii {byte : UInt8} (ascii : byte < 0x80) :
    String.utf8EncodeChar (Char.ofNat byte.toNat) = [byte] := by
  have bound : byte.toNat < 0x80 := UInt8.lt_iff_toNat_lt.mp ascii
  have same := toNat_charOfNat (.inl (show byte.toNat < 0xd800 by omega))
  rcases utf8EncodeChar_cases (Char.ofNat byte.toNat) with
    ⟨-, form⟩ | ⟨above, -⟩ | ⟨above, -⟩ | ⟨above, -⟩
  · rw [form, same, UInt8.ofNat_toNat]
  · omega
  · omega
  · omega

/-- The form of a character is read as the character, whatever follows. -/
theorem front?_append (char : Char) (rest : Bytes) :
    front? (String.utf8EncodeChar char ++ rest) =
      .ok (char, (String.utf8EncodeChar char).length) := by
  by_cases ascii : char.toNat < 0x80
  · have small : UInt8.ofNat char.toNat < 0x80 := by
      rw [UInt8.lt_iff_toNat_lt, toNat_ofNat_of_lt (by omega)]
      exact ascii
    have form := utf8EncodeChar_of_ascii small
    rw [toNat_ofNat_of_lt (by omega), Char.ofNat_toNat] at form
    rw [form, List.singleton_append, front?, if_pos small, toNat_ofNat_of_lt (by omega),
      Char.ofNat_toNat]
    rfl
  · obtain ⟨lead, first, second, later, form, announced, value⟩ :=
      announced_utf8EncodeChar (Nat.not_lt.mp ascii)
    have length := announced.length
    rw [form, List.cons_append, List.cons_append]
    refine (announced.front? rest).trans ?_
    rw [value, Char.ofNat_toNat, ← length]
    rfl

/-- A character is read only where its form stands. -/
theorem exists_of_front? (read : front? content = .ok (char, width)) :
    ∃ rest, content = String.utf8EncodeChar char ++ rest := by
  cases content with
  | nil => cases read
  | cons first tail =>
    rw [front?] at read
    split at read
    · rename_i ascii
      obtain ⟨rfl, -⟩ := Prod.mk.inj (Except.ok.inj read)
      exact ⟨tail, by rw [utf8EncodeChar_of_ascii ascii, List.singleton_append]⟩
    · rename_i notAscii
      split at read
      · cases read
      · rename_i lead announced
        dsimp only at read
        split at read
        · rename_i whole
          obtain ⟨second, later, more, rfl, low, high, tails, length, held⟩ :=
            Lead.exists_of_length_continuation (Lead.tail_ne_zero announced) whole
          obtain ⟨rfl, -⟩ := Prod.mk.inj (Except.ok.inj read)
          have form : Announced lead first second later :=
            ⟨by simpa [UInt8.lt_iff_toNat_lt] using notAscii, announced,
              UInt8.le_iff_toNat_le.mp low, UInt8.le_iff_toNat_le.mp high, tails, length⟩
          rw [held]
          refine ⟨more, ?_⟩
          rw [← spelled, form.encode_spelled]
          rfl
        · split at read <;> cases read

private theorem decode_scan_skip (index skipped : Nat) (content : Bytes) :
    decode.scan index skipped content = decode.scan (index + skipped) 0 (content.drop skipped) := by
  induction content generalizing index skipped with
  | nil => cases skipped <;> simp [decode.scan]
  | cons first rest ih =>
    cases skipped with
    | zero => rfl
    | succ skipped =>
      rw [decode.scan, ih, List.drop_succ_cons]
      congr 1
      omega

/-- Behind a character the reading goes on. -/
private theorem decode_scan_append (index : Nat) (char : Char) (rest : Bytes) :
    decode.scan index 0 (String.utf8EncodeChar char ++ rest) =
      (decode.scan (index + (String.utf8EncodeChar char).length) 0 rest).map (char :: ·) := by
  have read := front?_append char rest
  obtain ⟨first, others, form⟩ := List.exists_cons_of_ne_nil (@String.utf8EncodeChar_ne_nil char)
  rw [form, List.cons_append] at read ⊢
  rw [decode.scan, read]
  simp only
  rw [decode_scan_skip, List.length_cons, Nat.add_sub_cancel, List.drop_left, Nat.add_assoc,
    Nat.add_comm 1]

/-- A reading ends at the end of the content or goes on behind a character. -/
private theorem decode_scan_cases {chars : List Char}
    (read : decode.scan index 0 content = .ok chars) :
    content = [] ∧ chars = [] ∨
      ∃ char later rest, content = String.utf8EncodeChar char ++ rest ∧ chars = char :: later ∧
        decode.scan (index + (String.utf8EncodeChar char).length) 0 rest = .ok later := by
  cases content with
  | nil => exact .inl ⟨rfl, (Except.ok.inj read).symm⟩
  | cons first tail =>
    cases front : front? (first :: tail) with
    | error flaw =>
      rw [decode.scan, front] at read
      cases read
    | ok result =>
      obtain ⟨rest, parts⟩ := exists_of_front? front
      rw [parts, decode_scan_append] at read
      cases behind : decode.scan (index + (String.utf8EncodeChar result.1).length) 0 rest with
      | error fault =>
        rw [behind] at read
        cases read
      | ok later =>
        rw [behind] at read
        exact .inr ⟨result.1, later, rest, parts, (Except.ok.inj read).symm, behind⟩

private theorem decode_scan_eq_ok_iff {chars : List Char} :
    decode.scan index 0 content = .ok chars ↔ content = chars.flatMap String.utf8EncodeChar := by
  constructor
  · intro read
    induction chars generalizing index content with
    | nil =>
      rcases decode_scan_cases read with ⟨empty, -⟩ | ⟨_, _, _, -, filled, -⟩
      · exact empty
      · cases filled
    | cons char chars ih =>
      rcases decode_scan_cases read with ⟨-, none⟩ | ⟨first, later, rest, parts, same, behind⟩
      · cases none
      · obtain ⟨rfl, rfl⟩ := List.cons.inj same
        rw [parts, List.flatMap_cons, ih behind]
  · rintro rfl
    induction chars generalizing index with
    | nil => rfl
    | cons char chars ih =>
      rw [List.flatMap_cons, decode_scan_append, ih]
      rfl

/-- A content is read as a text exactly if it is the bytes of the text. -/
theorem decodeText_eq_ok_iff {text : String} :
    decodeText content = .ok text ↔ content = textBytes text := by
  rw [textBytes, ← @decode_scan_eq_ok_iff content 0, decodeText, ← decode]
  cases decode content with
  | error fault => simp [Except.map]
  | ok chars =>
    rw [Except.map, Except.ok.injEq, Except.ok.injEq]
    constructor
    · intro same
      rw [← same, String.toList_ofList]
    · intro same
      rw [same, String.ofList_toList]

end ConfigHeader.Utf8
