import ConfigHeader.Json.Basic

namespace ConfigHeader.Check

inductive Kind where
  | function
  | lib
  | type
  | compile
  | link
  | define
  /-- A variable for markers, never a definition by itself. -/
  | substitution
  | sizeof
  | alignof
  | computeInt
  | endian
  | decl
  | member
deriving DecidableEq, Repr

namespace Kind

def tag : Kind → String
  | function => "function"
  | lib => "lib"
  | type => "type"
  | compile => "compile"
  | link => "link"
  | define => "define"
  | substitution => "m4_variable"
  | sizeof => "sizeof"
  | alignof => "alignof"
  | computeInt => "compute_int"
  | endian => "endian"
  | decl => "decl"
  | member => "member"

def all : List Kind :=
  [function, lib, type, compile, link, define, substitution, sizeof, alignof, computeInt, endian,
    decl, member]

/-- The kind of a tag. A variable may also be named `subst`. -/
def ofTag? (text : String) : Option Kind :=
  if text = "subst" then some substitution else all.find? fun kind => kind.tag == text

/-- The kind that a value names, either by its tag or as an object whose only field has the tag as
its key and no value. -/
def ofJson? : Json → Option Kind
  | .string text => ofTag? text
  | .object [(text, .null)] => ofTag? text
  | _ => none

/-- Whether a failed check of this kind still gives a definition where it has a value. -/
def valueSuffices : Kind → Bool
  | define | decl => true
  | _ => false

end Kind

end ConfigHeader.Check
