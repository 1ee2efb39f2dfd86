/-! Paths as texts. Joining and taking the parent work on the text alone: nothing is looked up, and
`..` stays where it stands. -/
namespace ConfigHeader

structure Path where
  text : String
deriving DecidableEq, Repr

namespace Path

/-- The pieces of the text between its slashes, at least one. -/
def pieces (path : Path) : List String :=
  (path.text.toList.splitOn '/').map String.ofList

def isAbsolute (path : Path) : Bool :=
  path.text.toList.head? == some '/'

/-- Whether a piece leaves the directory where it is. -/
def isIdle (piece : String) : Bool :=
  piece == "" || piece == "."

def dropIdle (pieces : List String) : List String :=
  (pieces.reverse.dropWhile isIdle).reverse

def body (path : Path) : List String :=
  if path.isAbsolute || path.pieces.head? == some "." then path.pieces.tail else path.pieces

/-- The text with its pieces cut down to these. -/
def withBody (path : Path) (body : List String) : Path :=
  let text := "/".intercalate body
  if path.isAbsolute then ⟨"/" ++ text⟩
  else if path.pieces.head? = some "." then ⟨if body = [] then "." else "./" ++ text⟩
  else ⟨text⟩

/-- The path without its last piece, if it has one. Slashes and dots next to the cut go with it. -/
def parent? (path : Path) : Option Path :=
  match dropIdle path.body with
  | [] => if path.isAbsolute || path.text == "" then none else some ⟨""⟩
  | kept => some (path.withBody (dropIdle kept.dropLast))

/-- The path and its parents, the longest first. -/
def ancestors (path : Path) : List Path :=
  climb path.text.length path
where
  climb : (steps : Nat) → Path → List Path
    | 0, path => [path]
    | steps + 1, path => path :: ((path.parent?.map (climb steps)).getD [])

def directory (path : Path) : Path :=
  match path.parent? with
  | some parent => if parent.text = "" then ⟨"."⟩ else parent
  | none => ⟨"."⟩

/-- A path seen from a base. An absolute path does not depend on the base. -/
def join (base path : Path) : Path :=
  if path.isAbsolute || base.text == "" then path
  else if base.text.toList.getLast? = some '/' then ⟨base.text ++ path.text⟩
  else ⟨base.text ++ "/" ++ path.text⟩

end Path

end ConfigHeader
