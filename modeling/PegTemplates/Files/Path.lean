/-!
# Path texts

A path is a text of names separated by slashes. Empty names and the name `.`
change nothing, except that a leading `.` is kept and a leading slash makes the
path absolute. All functions here look at the text only.
-/

namespace PegTemplates.Files

/-- A path as text. -/
abbrev Path := String

/-- Pieces of a text between slashes; there is always at least one. -/
def splitSlash : List Char → List (List Char)
  | [] => [[]]
  | c :: rest =>
    if c = '/' then [] :: splitSlash rest
    else
      match splitSlash rest with
      | [] => [[c]]
      | piece :: pieces => (c :: piece) :: pieces

/-- Splitting leaves at least one piece. -/
theorem splitSlash_ne_nil (text : List Char) : splitSlash text ≠ [] := by
  cases text with
  | nil => simp [splitSlash]
  | cons c rest =>
    simp only [splitSlash]
    split
    · simp
    · split <;> simp

/-- The names of a path as they are written, empty ones included. -/
def Path.pieces (path : Path) : List String := (splitSlash path.toList).map String.ofList

/-- A path of the given names. -/
def Path.ofPieces (pieces : List String) : Path := "/".intercalate pieces

/-- Whether a path starts at the root. -/
def Path.isAbsolute (path : Path) : Bool := path.toList.head? = some '/'

/-- Whether a piece changes nothing behind another one. -/
def isTrivial (piece : String) : Bool := piece = "" || piece = "."

/-- Pieces without the trivial ones at the end. -/
def trimTrivial (pieces : List String) : List String :=
  (pieces.reverse.dropWhile isTrivial).reverse

/-- Pieces without the trivial ones at the end, where a first piece is kept
because nothing stands before it. -/
def trimRelative : List String → List String
  | [] => []
  | first :: rest => first :: trimTrivial rest

/-- The path without its last name; the root and the empty path have none. -/
def Path.parent? (path : Path) : Option Path :=
  if path.isAbsolute then
    match trimTrivial (path.pieces.drop 1) with
    | [] => none
    | pieces => some ("/" ++ Path.ofPieces (trimTrivial pieces.dropLast))
  else
    match trimRelative path.pieces with
    | [] => none
    | [only] => if only = "" then none else some ""
    | pieces => some (Path.ofPieces (trimRelative pieces.dropLast))

/-- The path and all paths above it, longest first. A path has no more names than
characters, which bounds their number. -/
def Path.ancestors (path : Path) : List Path :=
  go path.length path
where
  /-- The path and at most that many paths above it. -/
  go : Nat → Path → List Path
    | 0, path => [path]
    | steps + 1, path =>
      match path.parent? with
      | some parent => path :: go steps parent
      | none => [path]

/-- The last name of a path; a path that ends in `..` or names no more than the
place it starts from has none. -/
def Path.fileName? (path : Path) : Option String :=
  let pieces :=
    if path.isAbsolute then trimTrivial path.pieces else trimRelative path.pieces
  match pieces.getLast? with
  | some name => if name = "" ∨ name = "." ∨ name = ".." then none else some name
  | none => none

/-- A name without what follows its last point; a point at the start does not
count. -/
def stemOf (name : String) : String :=
  match name.toList.reverse.dropWhile (· ≠ '.') with
  | [] => name
  | [_] => name
  | _ :: before => String.ofList before.reverse

/-- The last name of a path without what follows its last point. -/
def Path.fileStem? (path : Path) : Option String := path.fileName?.map stemOf

/-- A path followed from another one; an absolute path starts anew. -/
def Path.join (base next : Path) : Path :=
  if next.isAbsolute ∨ base.isEmpty then next
  else if base.toList.getLast? = some '/' then base ++ next
  else base ++ "/" ++ next

end PegTemplates.Files
