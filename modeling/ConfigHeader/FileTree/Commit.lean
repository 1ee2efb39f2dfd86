import ConfigHeader.FileTree.Basic

/-! Changes of a tree, each of which the disk may refuse. The bytes of a file are collected in a
draft beside it, which is moved to the place of the file once it is complete, so a write that fails
changes no file. What it leaves behind at most are directories. -/
namespace ConfigHeader

/-- Actions on a tree that may fail. A failed action keeps the changes made before it. -/
abbrev FileAction (Fault : Type) := ExceptT Fault (StateM FileTree)

namespace FileTree

def look {Fault α : Type} (view : FileTree → Except Fault α) : FileAction Fault α := do
  liftExcept (view (← get))
where
  liftExcept : Except Fault α → FileAction Fault α
    | .ok result => pure result
    | .error fault => throw fault

/-- The answer of the disk to the next change. -/
def nextAnswer : FileAction FileFault (Option Refusal) := do
  let tree ← get
  set { tree with answers := tree.answers.tail }
  return tree.answers.head?.join

/-- Makes one change of the tree, or nothing of it where the disk refuses. -/
def change (alter : FileTree → FileTree) : FileAction FileFault Unit := do
  match ← nextAnswer with
  | none => modify alter
  | some refusal => throw refusal.fault

/-- Makes a directory where nothing is. Slashes at the end of the path do not count. -/
def makeDirectory (path : Path) : FileAction FileFault Unit := do
  let location ← look fun tree => do
    tree.follow (← tree.startOf path) (path.pieces.reverse.dropWhile (· == "")).reverse
  match (← get).node? location with
  | some _ => throw .alreadyExists
  | none => change (·.put location .directory)

/-- Makes the first of these directories, each of which is the parent of the one before it, and
those of the others that are missing. -/
def makeDirectories : List Path → FileAction FileFault Unit
  | [] => throw .notFound
  | path :: above =>
    if path.text = "" then pure ()
    else tryCatch (makeDirectory path) fun fault => do
      if fault = .notFound then
        makeDirectories above
        tryCatch (makeDirectory path) (accept path)
      else accept path fault
where
  /-- A directory that is there already is as good as a new one. -/
  accept (path : Path) (fault : FileFault) : FileAction FileFault Unit := do
    if (← get).holdsDirectory path then pure () else throw fault

def ensureDirectory (path : Path) : FileAction FileFault Unit := do
  if path.text = "" || (← get).holds path then pure () else makeDirectories path.ancestors

/-- The location where a file can take the place of another or of nothing. The last piece of its
path must be a name. -/
def fileLocation (tree : FileTree) (path : Path) : Except FileFault Location := do
  let location ← tree.locate path
  match path.pieces.getLast? with
  | none => .error .notFound
  | some name =>
    if Path.isIdle name || name == ".." then .error .isDirectory
    else
      match tree.node? location with
      | some .directory => .error .isDirectory
      | _ => .ok location

/-- How many names are tried for a draft. -/
def draftAttempts : Nat := 65536

/-- All drafts have names of one length. -/
def draftName (number : Nat) : String :=
  let digits := Nat.toDigits 10 number
  ".tmp" ++ String.ofList (List.replicate (6 - digits.length) '0' ++ digits)

/-- The absolute path of a draft in the directory of a file. -/
def draftPath (tree : FileTree) (path : Path) (number : Nat) : Path :=
  ((Path.mk ("/" ++ "/".intercalate tree.workingDirectory)).join path.directory).join
    ⟨draftName number⟩

/-- The location for a new draft: that of the first name, from a number on, under which there is
nothing yet. Any free name would do, since no draft stays. -/
def draftLocation (tree : FileTree) (path : Path) :
    (attempts number : Nat) → Except FileFault Location
  | 0, _ => .error .alreadyExists
  | attempts + 1, number => do
    let location ← tree.locate (tree.draftPath path number)
    match tree.node? location with
    | some _ => tree.draftLocation path attempts (number + 1)
    | none => .ok location

/-- Makes an empty draft in the directory of a file. -/
def createDraft (path : Path) : FileAction FileFault Location := do
  let draft ← look (·.draftLocation path draftAttempts 0)
  change (·.put draft (.file []))
  return draft

/-- Writes the content into a draft, or as much of it as the disk takes in. -/
def fillDraft (draft : Location) (content : Bytes) : FileAction FileFault Unit := do
  match ← nextAnswer with
  | none => modify (·.put draft (.file content))
  | some refusal =>
    modify (·.put draft (.file (content.take refusal.taken)))
    throw refusal.fault

/-- Makes sure that all that was written has arrived. The tree shows it already. -/
def flushDraft : FileAction FileFault Unit :=
  change id

/-- Moves a draft to the place of the file, in one step. -/
def moveDraft (draft : Location) (path : Path) : FileAction FileFault Unit := do
  let location ← look (·.fileLocation path)
  change (·.move draft location)

def completeDraft (draft : Location) (path : Path) (content : Bytes) :
    FileAction FileFault Unit := do
  fillDraft draft content
  flushDraft
  moveDraft draft path

/-- Writes a file by way of a draft. A draft that comes to nothing is taken away. -/
def writeByDraft (path : Path) (content : Bytes) : FileAction FileFault Unit := do
  let draft ← createDraft path
  tryCatch (completeDraft draft path content) fun fault => do
    modify (·.remove draft)
    throw fault

/-- Writes a file after making the directories that its path needs. -/
def writeFile (path : Path) (content : Bytes) : FileAction FileFault Unit := do
  ensureDirectory path.directory
  writeByDraft path content

end FileTree

end ConfigHeader
