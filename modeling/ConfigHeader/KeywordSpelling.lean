import ConfigHeader.FileTree.Exchange
import ConfigHeader.Notice

namespace ConfigHeader.KeywordSpelling

/-- A spelling of the keyword. -/
inductive Spelling where
  | native
  /-- The keyword between double underscores. -/
  | enclosed
  /-- The keyword behind a double underscore. -/
  | leading
deriving DecidableEq, Repr

def keyword : String := "restrict"

def Spelling.text : Spelling → String
  | native => keyword
  | enclosed => "__restrict__"
  | leading => "__restrict"

/-- Whether the probe of each spelling succeeded. -/
structure Probes (α : Type) where
  native : α
  enclosed : α
  leading : α

def choose (accepted : Probes Bool) : Option Spelling :=
  if accepted.native then some .native
  else if accepted.enclosed then some .enclosed
  else if accepted.leading then some .leading
  else none

def answer : Option Spelling → String
  | some spelling => spelling.text
  | none => "no"

/-- The result that records a choice. Without any spelling the check fails and its value is empty. -/
def toCheck (choice : Option Spelling) : Check where
  name := keyword
  define := some keyword
  value :=
    match choice with
    | some .native => none
    | some spelling => some (Json.string spelling.text).compactText
    | none => some ""
  success := choice.isSome
  kind := .compile
  unquote := true

def document (choice : Option Spelling) : String :=
  (Check.toDocument [toCheck choice]).indentedText 4 ++ "\n"

/-- Whether the first result of a probe's file is a success. -/
def readProbe (tree : FileTree) (path : Path) : Except Fault Bool := do
  match ← tree.inputChecks path with
  | [] => .error (.malformedResults path .noResult)
  | first :: _ => .ok first.success

def readChoice (files : Probes Path) (tree : FileTree) : Except Fault (Option Spelling) := do
  return choose {
    native := ← readProbe tree files.native
    enclosed := ← readProbe tree files.enclosed
    leading := ← readProbe tree files.leading }

def write (files : Probes Path) (output : Path) : FileAction Fault (Option Spelling) := do
  let choice ← FileTree.look (readChoice files)
  FileTree.commit output (textBytes (document choice))
  return choice

def notices (files : Probes Path) (tree : FileTree) : List Notice :=
  match readChoice files tree with
  | .error _ => []
  | .ok choice => [⟨.info, "checking for C/C++ restrict keyword... " ++ answer choice⟩]

end ConfigHeader.KeywordSpelling
