import ConfigHeader.Bytes
import ConfigHeader.KeyMap

/-! Lines of the form `#undef NAME`. Such a line is `#`, blanks, `undef`, at least one blank, a C
identifier and the run of newlines right behind it. The pass over a template replaces every such
line by what is decided for its name and copies all other bytes. -/
namespace ConfigHeader.Template

/-- The parts of an `#undef` line. -/
structure UndefDirective where
  spacing : Bytes
  gap : Bytes
  name : Bytes
  /-- The newline that ends the line, with those of the empty lines after it. -/
  newlines : Bytes
deriving DecidableEq, Repr

namespace UndefDirective

def keyword : Bytes := textBytes "undef"

def text (line : UndefDirective) : Bytes :=
  Byte.hash :: line.spacing ++ keyword ++ line.gap ++ line.name ++ line.newlines

/-- The line at the front of a content. The name and the newlines are as long as they can be, and
the newlines must follow the name at once. -/
def read? : Bytes → Option UndefDirective
  | [] => none
  | first :: rest =>
    if first = Byte.hash then
      match Bytes.after? keyword (rest.dropWhile Byte.isBlank) with
      | none => none
      | some tail =>
        let named := tail.dropWhile Byte.isBlank
        let name := leadingName named
        let line : UndefDirective :=
          { spacing := rest.takeWhile Byte.isBlank
            gap := tail.takeWhile Byte.isBlank
            name
            newlines := (named.drop name.length).takeWhile (· == Byte.newline) }
        if line.gap = [] ∨ line.name = [] ∨ line.newlines = [] then none else some line
    else none

end UndefDirective

/-- What becomes of the `#undef` line of a name. -/
inductive Action where
  | define (text : String)
  | comment
deriving DecidableEq, Repr

/-- What becomes of the `#undef` lines of all other names. -/
inductive Unlisted where
  | comment
  | keep
deriving DecidableEq, Repr

namespace UndefDirective

def commented (line : UndefDirective) : Bytes :=
  textBytes "/* #" ++ line.spacing ++ textBytes "undef " ++ line.name ++ textBytes " */" ++
    line.newlines

/-- The line replaced by a text. The blanks after `#` carry over to a text that begins with `#`. -/
def defined (line : UndefDirective) (text : Bytes) : Bytes :=
  (match text with
    | [] => []
    | first :: rest =>
      if first = Byte.hash then first :: line.spacing ++ rest else first :: rest) ++ line.newlines

def replacement (unlisted : Unlisted) (line : UndefDirective) : Option Action → Bytes
  | some (.define text) => line.defined (textBytes text)
  | some .comment => line.commented
  | none =>
    match unlisted with
    | .comment => line.commented
    | .keep => line.text

end UndefDirective

/-- Replaces every `#undef` line of a content, in one pass from left to right. -/
def settleUndefs (actions : KeyMap Action) (unlisted : Unlisted) (content : Bytes) : Bytes :=
  scan 0 content
where
  /-- The rest of the pass, of which the first `skipped` bytes belong to a line already replaced. -/
  scan : Nat → Bytes → Bytes
    | _, [] => []
    | skipped + 1, _ :: rest => scan skipped rest
    | 0, first :: rest =>
      match UndefDirective.read? (first :: rest) with
      | some line =>
        line.replacement unlisted (actions.find? (nameText line.name)) ++
          scan (line.text.length - 1) rest
      | none => first :: scan 0 rest

end ConfigHeader.Template
