import ConfigHeader.Fault
import ConfigHeader.FileTree.Commit

namespace ConfigHeader.FileTree

/-- The bytes of an input file. A path that leads to nothing is told apart from a file that cannot
be read. -/
def inputBytes (tree : FileTree) (path : Path) : Except Fault Bytes :=
  if tree.holds path then (tree.contentOf path).mapError (Fault.inputUnreadable path)
  else .error (.inputMissing path)

def inputText (tree : FileTree) (path : Path) : Except Fault String := do
  (Utf8.decodeText (← tree.inputBytes path)).mapError fun fault =>
    .inputUnreadable path (.invalidUtf8 fault)

/-- The results of a results file, in the order of their names. -/
def inputChecks (tree : FileTree) (path : Path) : Except Fault (List Check) := do
  (Check.ofDocument (← tree.inputText path)).mapError (Fault.malformedResults path)

def commit (path : Path) (content : Bytes) : FileAction Fault Unit :=
  ExceptT.adapt (Fault.outputUnwritable path) (writeFile path content)

end ConfigHeader.FileTree
