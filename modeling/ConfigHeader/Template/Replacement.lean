import ConfigHeader.Bytes
import ConfigHeader.KeyMap

/-! Replacement of search strings, before any markup is read. A literal replacement copies the
content forward piece by piece; an inlined file is spliced in from the last occurrence to the
first. Search strings apply one after another in byte order, and an empty one is passed over. -/
namespace ConfigHeader.Template

/-- The positions of the occurrences of `needle`, found from left to right, each search beginning
where the occurrence before it ends. -/
def occurrences (needle content : Bytes) : List Nat :=
  scan 0 0 content
where
  /-- The positions in the rest of the content, which begins at `position` and of which the first
  `skipped` bytes belong to an occurrence already found. -/
  scan (position : Nat) : Nat → Bytes → List Nat
    | _, [] => []
    | skipped + 1, _ :: rest => scan (position + 1) skipped rest
    | 0, first :: rest =>
      if needle.isPrefixOf (first :: rest) then
        position :: scan (position + 1) (needle.length - 1) rest
      else scan (position + 1) 0 rest

/-- The content with `replacement` in the place of `width` bytes at each of the positions, which
increase. -/
def copyReplacing (replacement : Bytes) (width : Nat) : List Nat → Bytes → Bytes :=
  copy 0
where
  copy (copied : Nat) : List Nat → Bytes → Bytes
    | [], rest => rest
    | position :: later, rest =>
      rest.take (position - copied) ++ replacement ++
        copy (position + width) later (rest.drop (position + width - copied))

def replaceLiteral (content search replacement : Bytes) : Bytes :=
  copyReplacing replacement search.length (occurrences search content) content

def splice (replacement : Bytes) (width position : Nat) (content : Bytes) : Bytes :=
  content.take position ++ replacement ++ content.drop (position + width)

/-- Replaces every occurrence of a search string, the last one first, so that the positions of the
others stay valid. -/
def inlineAll (content search replacement : Bytes) : Bytes :=
  (occurrences search content).foldr (splice replacement search.length) content

def substituteTexts (substitutions : KeyMap String) (content : Bytes) : Bytes :=
  substitutions.entries.foldl
    (fun content (search, replacement) =>
      if search = "" then content
      else replaceLiteral content (textBytes search) (textBytes replacement))
    content

structure InlineFailure (Path Fault : Type) where
  search : String
  path : Path
  fault : Fault
deriving DecidableEq, Repr

/-- Applies the inlined files in the order of their search strings. A file is read also when its
search string does not occur. -/
def inlineFiles {Path Fault : Type} (read : Path → Except Fault Bytes) (inlines : KeyMap Path)
    (content : Bytes) : Except (InlineFailure Path Fault) Bytes :=
  inlines.entries.foldlM
    (fun content (search, path) =>
      if search = "" then .ok content
      else
        match read path with
        | .ok replacement => .ok (inlineAll content (textBytes search) replacement)
        | .error fault => .error { search, path, fault })
    content

end ConfigHeader.Template
