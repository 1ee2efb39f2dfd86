import ConfigHeader.Path
import ConfigHeader.Text.Utf8

/-! A tree of files and directories. A path leads step by step from the working directory or the
root; every step must start in a directory. Paths and the names in them are limited in length, and
no path holds U+0000. -/
namespace ConfigHeader

/-- Where something is in a tree: the names on the way from the root. -/
abbrev Location := List String

inductive Node where
  | file (content : Bytes)
  | directory
deriving DecidableEq, Repr

inductive FileFault where
  | notFound
  | notDirectory
  | isDirectory
  | alreadyExists
  | nameTooLong
  | holdsNul
  /-- The content is not UTF-8, with the first place where it is not. -/
  | invalidUtf8 (fault : Utf8.Fault)
  | notText
  | other (description : String)
deriving DecidableEq, Repr

def FileFault.message : FileFault → String
  | notFound => "No such file or directory (os error 2)"
  | notDirectory => "Not a directory (os error 20)"
  | isDirectory => "Is a directory (os error 21)"
  | alreadyExists => "File exists (os error 17)"
  | nameTooLong => "File name too long (os error 36)"
  | holdsNul => "file name contained an unexpected NUL byte"
  | invalidUtf8 fault => fault.message
  | notText => "stream did not contain valid UTF-8"
  | other description => description

/-- What the disk says where it does not make a change. -/
structure Refusal where
  fault : FileFault
  /-- How many bytes it takes in before that, where the change was to fill a file. -/
  taken : Nat := 0
deriving DecidableEq, Repr

/-- A tree of files and directories, seen from one of its directories, on a disk that may refuse to
change it. -/
structure FileTree where
  /-- The directory that relative paths start from. -/
  workingDirectory : Location
  /-- What is at each location but the root, which is a directory. -/
  nodes : List (Location × Node)
  /-- The answers of the disk to the changes to come, in their order; `none` is a change that it
  makes. It makes all those for which the list has no answer. -/
  answers : List (Option Refusal) := []

namespace FileTree

def node? (tree : FileTree) (location : Location) : Option Node :=
  if location = [] then some .directory else tree.nodes.lookup location

def remove (tree : FileTree) (location : Location) : FileTree :=
  { tree with nodes := tree.nodes.filter fun entry => entry.1 != location }

def put (tree : FileTree) (location : Location) (node : Node) : FileTree :=
  { tree with nodes := (location, node) :: (tree.remove location).nodes }

/-- The tree with what is at one location at another, in the place of what was there. -/
def move (tree : FileTree) (source target : Location) : FileTree :=
  match tree.node? source with
  | some node => (tree.remove source).put target node
  | none => tree

def requireDirectory (tree : FileTree) (location : Location) : Except FileFault Unit :=
  match tree.node? location with
  | some .directory => .ok ()
  | some (.file _) => .error .notDirectory
  | none => .error .notFound

def nameLimit : Nat := 255

def pathLimit : Nat := 4095

/-- The location that one piece of a path leads to from a directory. Nothing need be there. -/
def step (tree : FileTree) (location : Location) (piece : String) :
    Except FileFault Location := do
  tree.requireDirectory location
  if Path.isIdle piece then .ok location
  else if piece = ".." then .ok location.dropLast
  else if nameLimit < piece.utf8ByteSize then .error .nameTooLong
  else .ok (location ++ [piece])

def follow (tree : FileTree) (start : Location) (pieces : List String) :
    Except FileFault Location :=
  pieces.foldlM tree.step start

/-- The location where a path begins. The empty path begins nowhere. -/
def startOf (tree : FileTree) (path : Path) : Except FileFault Location :=
  if '\x00' ∈ path.text.toList then .error .holdsNul
  else if path.text = "" then .error .notFound
  else if pathLimit < path.text.utf8ByteSize then .error .nameTooLong
  else .ok (if path.isAbsolute then [] else tree.workingDirectory)

def locate (tree : FileTree) (path : Path) : Except FileFault Location := do
  tree.follow (← tree.startOf path) path.pieces

def find (tree : FileTree) (path : Path) : Except FileFault Node := do
  let location ← tree.locate path
  match tree.node? location with
  | some node => .ok node
  | none => .error .notFound

def holds (tree : FileTree) (path : Path) : Bool :=
  match tree.find path with
  | .ok _ => true
  | .error _ => false

def holdsDirectory (tree : FileTree) (path : Path) : Bool :=
  match tree.find path with
  | .ok .directory => true
  | _ => false

def contentOf (tree : FileTree) (path : Path) : Except FileFault Bytes := do
  match ← tree.find path with
  | .file content => .ok content
  | .directory => .error .isDirectory

end FileTree

end ConfigHeader
