import ConfigHeader.Bytes

/-! Reading UTF-8. A content that is not valid is reported with the place of its first flaw: the
longest run of bytes that begins like a character and is none, or an end in the middle of one. -/
namespace ConfigHeader.Utf8

inductive Flaw where
  /-- This many bytes begin no character. -/
  | invalid (length : Nat)
  /-- The content ends before the character does. -/
  | incomplete
deriving DecidableEq, Repr

structure Fault where
  flaw : Flaw
  index : Nat
deriving DecidableEq, Repr

def Fault.message (fault : Fault) : String :=
  match fault.flaw with
  | .invalid length =>
    s!"invalid utf-8 sequence of {length} bytes from index {fault.index}"
  | .incomplete => s!"incomplete utf-8 byte sequence from index {fault.index}"

/-- What the first byte of a character of several bytes announces. -/
structure Lead where
  tail : Nat
  bits : Nat
  low : UInt8
  high : UInt8

/-- The announcement of a first byte from `0x80` on. The bounds on the second byte leave out
characters with a shorter form, surrogates and what lies beyond the last character. -/
def lead? (byte : UInt8) : Option Lead :=
  if byte < 0xc2 then none
  else if byte < 0xe0 then some ⟨1, byte.toNat - 0xc0, 0x80, 0xbf⟩
  else if byte < 0xf0 then
    some ⟨2, byte.toNat - 0xe0, if byte = 0xe0 then 0xa0 else 0x80,
      if byte = 0xed then 0x9f else 0xbf⟩
  else if byte < 0xf5 then
    some ⟨3, byte.toNat - 0xf0, if byte = 0xf0 then 0x90 else 0x80,
      if byte = 0xf4 then 0x8f else 0xbf⟩
  else none

def Lead.continuation (lead : Lead) (tail : Bytes) : Bytes :=
  match tail.take lead.tail with
  | [] => []
  | second :: later =>
    if lead.low ≤ second && second ≤ lead.high then
      second :: later.takeWhile fun byte => 0x80 ≤ byte && byte ≤ 0xbf
    else []

def front? : Bytes → Except Flaw (Char × Nat)
  | [] => .error .incomplete
  | first :: rest =>
    if first < 0x80 then .ok (Char.ofNat first.toNat, 1)
    else
      match lead? first with
      | none => .error (.invalid 1)
      | some lead =>
        let continuation := lead.continuation rest
        if continuation.length = lead.tail then
          .ok (Char.ofNat (continuation.foldl (fun bits byte => bits * 64 + byte.toNat % 64)
            lead.bits), lead.tail + 1)
        else if continuation.length = rest.length then .error .incomplete
        else .error (.invalid (continuation.length + 1))

def decode (content : Bytes) : Except Fault (List Char) :=
  scan 0 0 content
where
  /-- The characters of the rest of the content, which begins at `index` and of which the first
  `skipped` bytes belong to a character already read. -/
  scan (index : Nat) : Nat → Bytes → Except Fault (List Char)
    | _, [] => .ok []
    | skipped + 1, _ :: rest => scan (index + 1) skipped rest
    | 0, first :: rest =>
      match front? (first :: rest) with
      | .ok (char, width) => (scan (index + 1) (width - 1) rest).map (char :: ·)
      | .error flaw => .error ⟨flaw, index⟩

def decodeText (content : Bytes) : Except Fault String :=
  (decode content).map String.ofList

end ConfigHeader.Utf8
