import ConfigHeader.Check.Value
import ConfigHeader.FileTree.Exchange

namespace ConfigHeader

def cutAt? (mark : Char) (chars : List Char) : Option (List Char × List Char) :=
  match chars.dropWhile (· != mark) with
  | [] => none
  | _ :: rest => some (chars.takeWhile (· != mark), rest)

/-- A source file, the name that it depends on, and the file to write. -/
structure GuardedSource where
  input : Path
  define : String
  output : Path
deriving DecidableEq, Repr

namespace GuardedSource

def text (source : GuardedSource) : String :=
  source.input.text ++ "=" ++ source.define ++ "=" ++ source.output.text

/-- The source that a text gives, cut at its first two equals signs. No part may be empty. -/
def ofText? (text : String) : Option GuardedSource := do
  let (input, rest) ← cutAt? '=' text.toList
  let (define, output) ← cutAt? '=' rest
  if input.isEmpty || define.isEmpty || output.isEmpty then none
  else
    return {
      input := ⟨String.ofList input⟩
      define := String.ofList define
      output := ⟨String.ofList output⟩ }

def ofText (text : String) : Except Misuse GuardedSource :=
  match ofText? text with
  | some source => .ok source
  | none => .error (.badSource text)

end GuardedSource

namespace Guard

/-- The bytes of a source, enabled or disabled. -/
def guarded (content : Bytes) (enabled : Bool) : Bytes :=
  if enabled then content
  else
    textBytes "#if 0\n" ++ content ++
      (if content = [] ∨ content.endsWithNewline then [] else [Byte.newline]) ++
      textBytes "#endif\n"

/-- The results of several files under their names, of which the last one counts. -/
def readResults (paths : List Path) (tree : FileTree) : Except Fault (KeyMap Check) :=
  paths.foldlM
    (fun results path => do
      return (← tree.inputChecks path).foldl (fun results check => results.insert check.name check)
        results)
    ∅

/-- Whether the result of this name is there and enables its sources. -/
def isEnabled (results : KeyMap Check) (name : String) : Bool :=
  (results.find? name).any Check.enables

def writeSource (results : KeyMap Check) (source : GuardedSource) : FileAction Fault Unit := do
  let content ← FileTree.look (·.inputBytes source.input)
  FileTree.commit source.output (guarded content (isEnabled results source.define))

/-- Reads the results and writes the sources one after another, so that a later one sees what an
earlier one wrote. -/
def write (paths : List Path) (sources : List GuardedSource) : FileAction Fault Unit := do
  if paths.isEmpty then throw (.invalidArguments .noResults)
  let results ← FileTree.look (readResults paths)
  sources.forM (writeSource results)

end Guard

end ConfigHeader
