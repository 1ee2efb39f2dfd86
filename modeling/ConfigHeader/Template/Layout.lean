import ConfigHeader.Bytes

namespace ConfigHeader.Template

/-- What remains of a list without the longest run at its end whose members satisfy a test. -/
def dropTrailing (test : UInt8 → Bool) (content : Bytes) : Bytes :=
  (content.reverse.dropWhile test).reverse

/-- Whether a line defines a name as empty: `#define `, more spaces, a name, and then either
exactly ` /**/` or only blanks, at least one. -/
def definesAsEmpty (line : Bytes) : Bool :=
  match Bytes.after? (textBytes "#define ") line with
  | none => false
  | some rest =>
    let named := rest.dropWhile (· == 0x20)
    let name := leadingName named
    let ending := named.drop name.length
    !name.isEmpty && !ending.isEmpty &&
      (ending == textBytes " /**/" || ending.all Byte.isBlank)

/-- A line without the blanks at its end, unless it defines a name as empty. -/
def tidyLine (line : Bytes) : Bytes :=
  if definesAsEmpty line then line else dropTrailing Byte.isBlank line

/-- Tidies every line. A newline at the very end is set aside first and put back afterwards. -/
def stripTrailingBlanks (content : Bytes) : Bytes :=
  if content.endsWithNewline then tidied content.dropLast ++ [Byte.newline] else tidied content
where
  tidied (body : Bytes) : Bytes :=
    [Byte.newline].intercalate ((body.splitOn Byte.newline).map tidyLine)

/-- Drops every newline at the end of a content whose template does not end with one. -/
def matchFinalNewline (template content : Bytes) : Bytes :=
  if template.endsWithNewline then content else dropTrailing (· == Byte.newline) content

end ConfigHeader.Template
