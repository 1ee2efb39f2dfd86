import ConfigHeader.CommandLine.Run

/-! The program. What a run may look at is taken from the disk into a tree of files, the run is a
function of that tree, and what it changed is brought back to the disk. -/
namespace ConfigHeader.CommandLine

def diskPath (location : Location) : String :=
  "/" ++ "/".intercalate location

def readNode? (location : Location) : IO (Option Node) := do
  try
    return some (.file (← IO.FS.readBinFile (diskPath location)).toList)
  catch
    | .noFileOrDirectory .. => return none
    | .inappropriateType .. => return some .directory
    | error => throw error

def workingTree : IO FileTree := do
  let path := Path.mk (toString (← IO.currentDir))
  let home := path.pieces.filter (· != "")
  return {
    workingDirectory := home
    nodes := (List.range home.length).map fun depth => (home.take (depth + 1), .directory) }

/-- The tree with what the disk holds on the way of a path, as far as the path can be followed. -/
def takeIn (tree : FileTree) (path : Path) : IO FileTree := do
  match tree.startOf path with
  | .error _ => return tree
  | .ok start =>
    let mut tree := tree
    let mut location := start
    for piece in path.pieces do
      match tree.step location piece with
      | .error _ => break
      | .ok next =>
        location := next
        if (tree.node? location).isNone then
          if let some node ← readNode? location then
            tree := tree.put location node
    return tree

/-- The tree with all that a run with these words may look at. Arguments files and manifests name
further files, so they are taken in first. -/
def treeFor (words : List String) : IO FileTree := do
  let tree ← (argumentsPath? (programName :: words)).toList.foldlM takeIn (← workingTree)
  match requestOf words tree with
  | .error _ => return tree
  | .ok request =>
    let tree ← (request.command.paths tree).foldlM takeIn tree
    (request.command.paths tree).foldlM takeIn tree

/-- Writes a file next to its place and moves it there. -/
def replaceFile (location : Location) (content : Bytes) : IO Unit := do
  let name := location.getLast?.getD ""
  let stamp ← IO.monoNanosNow
  let draft := diskPath (location.dropLast ++ [s!".{name}.{stamp}"])
  IO.FS.writeBinFile draft ⟨content.toArray⟩
  try IO.FS.rename draft (diskPath location)
  catch error =>
    IO.FS.removeFile draft
    throw error

/-- Brings what a run changed to the disk, in the order of the changes, up to the first change that
the disk refuses. -/
def bringBack (before after : FileTree) : IO (Except Fault Unit) := do
  for (location, node) in after.nodes.reverse do
    if before.node? location != some node then
      try
        match node with
        | .directory => IO.FS.createDir (diskPath location)
        | .file content => replaceFile location content
      catch error =>
        return .error (.outputUnwritable ⟨diskPath location⟩ (.other (toString error)))
  return .ok ()

def usageText : String :=
  "error: the arguments break a rule\n\nUsage: autohdr [OPTIONS] <COMMAND>\n\n" ++
    "For more information, try '--help'.\n"

def conclude (color : Bool) (ending : Ending) : IO UInt32 := do
  match ending with
  | .done => pure ()
  | .printed text => IO.print text
  | .failed fault => IO.eprint (fault.report.render color)
  | .misused => IO.eprint usageText
  return UInt32.ofNat ending.code

def runOnDisk (words : List String) : IO UInt32 := do
  let before ← treeFor words
  let outcome := run (← IO.getEnv "AUTOHDR_LOG") words before
  let plain := match requestOf words before with
    | .ok request => request.plain
    | .error _ => true
  let color := !plain && (← (← IO.getStderr).isTty)
  for notice in outcome.notices do
    IO.eprintln notice.line
  match ← bringBack before outcome.tree with
  | .error fault => conclude color (.failed fault)
  | .ok _ => conclude color outcome.ending

end ConfigHeader.CommandLine

def main (words : List String) : IO UInt32 := do
  try ConfigHeader.CommandLine.runOnDisk words
  catch error =>
    IO.eprintln s!"error: {error}"
    return 1
