/-! Content as bytes. A template need not be valid UTF-8, so every pass works on a list of bytes,
and the markup it looks for is ASCII. This module holds the byte classes of that markup and the
identifier at the front of a text. -/
namespace ConfigHeader

/-- The content of a file or of a template. -/
abbrev Bytes := List UInt8

def textBytes (text : String) : Bytes :=
  text.toList.flatMap String.utf8EncodeChar

namespace Byte

def newline : UInt8 := 0x0a

def hash : UInt8 := 0x23

def atSign : UInt8 := 0x40

def isBlank (byte : UInt8) : Bool :=
  byte == 0x20 || byte == 0x09

def isDigit (byte : UInt8) : Bool :=
  0x30 ≤ byte && byte ≤ 0x39

/-- An ASCII letter or an underscore, which may begin an identifier. -/
def isNameStart (byte : UInt8) : Bool :=
  (0x41 ≤ byte && byte ≤ 0x5a) || (0x61 ≤ byte && byte ≤ 0x7a) || byte == 0x5f

def isNamePart (byte : UInt8) : Bool :=
  isNameStart byte || isDigit byte

end Byte

/-- The longest C identifier at the front of a text, empty when there is none. -/
def leadingName : Bytes → Bytes
  | [] => []
  | first :: rest =>
    if Byte.isNameStart first then first :: rest.takeWhile Byte.isNamePart else []

def nameText (name : Bytes) : String :=
  String.ofList (name.map fun byte => Char.ofNat byte.toNat)

/-- What follows `head` in a content that begins with it. -/
def Bytes.after? (head content : Bytes) : Option Bytes :=
  if head.isPrefixOf content then some (content.drop head.length) else none

def Bytes.endsWithNewline (content : Bytes) : Bool :=
  content.getLast? == some Byte.newline

end ConfigHeader
