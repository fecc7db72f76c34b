import PegTemplates.Files.Directory
import PegTemplates.Files.Path

/-!
# A tree of files

Files and directories below one root. The root is always there and is its own
parent. Operations follow a path name by name, an absolute one from the root and any
other one from the working directory; every name but the last has to be a directory.
-/

namespace PegTemplates.Files

/-- Why an operation on files fails. -/
inductive Failure where
  /-- Nothing is there. -/
  | notFound
  /-- A file stands where a directory is needed. -/
  | notDirectory
  /-- A directory stands where a file is needed. -/
  | isDirectory
  /-- Something is there already. -/
  | alreadyThere
  /-- The operation is not permitted. -/
  | notPermitted
  /-- A name is too long. -/
  | nameTooLong
  /-- A path holds the character with code zero. -/
  | nulInPath
  /-- Any other failure of that number and wording. -/
  | other (code : Nat) (wording : String)
  deriving DecidableEq, Repr, Inhabited

/-- Wording of a failure. -/
def Failure.message : Failure → String
  | notFound => "No such file or directory (os error 2)"
  | notDirectory => "Not a directory (os error 20)"
  | isDirectory => "Is a directory (os error 21)"
  | alreadyThere => "File exists (os error 17)"
  | notPermitted => "Permission denied (os error 13)"
  | nameTooLong => "File name too long (os error 36)"
  | nulInPath => "file name contained an unexpected NUL byte"
  | other code wording => s!"{wording} (os error {code})"

/-- Files and directories below a root. -/
structure Tree where
  /-- Where relative paths start. -/
  workingDirectory : Place
  /-- What the root holds. -/
  root : Directory
  deriving DecidableEq, Repr, Inhabited

namespace Tree

/-- A tree that holds no more than an empty working directory, which stands under
the directories of the given names. -/
def withDirectory (place : Place) : Tree := ⟨place, .nested place⟩

/-- What is at a place. -/
def at? (tree : Tree) (place : Place) : Option Entry := tree.root.at? place

/-- The tree with something put at a place. -/
def put (tree : Tree) (place : Place) (entry : Entry) : Tree :=
  { tree with root := tree.root.put entry place }

/-- What was put at a place is there, if its directory is. -/
theorem at?_put {tree : Tree} {above : Place} {name : String}
    (there : tree.at? above = some .directory) (entry : Entry) :
    (tree.put (above ++ [name]) entry).at? (above ++ [name]) = some entry :=
  Directory.at?_put there entry

/-- Putting something at a place where no directory is changes no other place. -/
theorem at?_put_of_ne {tree : Tree} {place other : Place} (different : other ≠ place)
    (free : tree.at? place ≠ some .directory) (entry : Entry) :
    (tree.put place entry).at? other = tree.at? other :=
  Directory.at?_put_of_ne different free entry

/-- Greatest number of bytes of a name. -/
def nameLimit : Nat := 255

/-- Number of bytes that a path stays below. -/
def pathLimit : Nat := 4096

/-- A directory that a path has been followed to. -/
structure Location where
  /-- Names from the root to the directory, last first. -/
  names : List String
  /-- What the directory holds. -/
  held : Directory
  deriving Repr, Inhabited

/-- The place of a directory. -/
def Location.place (location : Location) : Place := location.names.reverse

/-- The directory at a place. -/
def locate (tree : Tree) (place : Place) : Location :=
  ⟨place.reverse, (tree.root.inside? place).getD .empty⟩

/-- Follows one name from a directory to a directory. -/
def enter (tree : Tree) (location : Location) (name : String) : Except Failure Location :=
  if isTrivial name then .ok location
  else if name = ".." then .ok (tree.locate location.place.dropLast)
  else if nameLimit < name.utf8ByteSize then .error .nameTooLong
  else
    match location.held.inside? [name] with
    | some held => .ok ⟨name :: location.names, held⟩
    | none =>
      if (location.held.at? [name]).isSome then .error .notDirectory else .error .notFound

/-- Where a path starts. -/
def start (tree : Tree) (path : Path) : Location :=
  tree.locate (if path.isAbsolute then [] else tree.workingDirectory)

/-- Follows names from a directory, all of them to directories. -/
def follow (tree : Tree) (location : Location) (names : List String) : Except Failure Location :=
  names.foldlM tree.enter location

/-- Refuses paths that name nothing at all. -/
def checked (path : Path) : Except Failure Path :=
  if path.toList.contains '\x00' then .error .nulInPath
  else if path.isEmpty then .error .notFound
  else if pathLimit ≤ path.utf8ByteSize then .error .nameTooLong
  else .ok path

/-- Whether a name stands for a place of its own. -/
def isOwnName (name : String) : Bool := !isTrivial name && name ≠ ".."

/-- What is at the end of a path. -/
def lookup (tree : Tree) (path : Path) : Except Failure Entry := do
  let pieces := (← checked path).pieces
  match pieces.getLast? with
  | some name =>
    if isOwnName name then
      let location ← tree.follow (tree.start path) pieces.dropLast
      if nameLimit < name.utf8ByteSize then .error .nameTooLong
      else
        match location.held.at? [name] with
        | some entry => .ok entry
        | none => .error .notFound
    else
      let _ ← tree.follow (tree.start path) pieces
      .ok .directory
  | none => .error .notFound

/-- Content of the file at the end of a path. -/
def read (tree : Tree) (path : Path) : Except Failure Content := do
  match ← tree.lookup path with
  | .file content => .ok content
  | .directory => .error .isDirectory

/-- Pieces up to the last that is not empty. -/
def withoutEnd (pieces : List String) : List String :=
  (pieces.reverse.dropWhile (· = "")).reverse

/-- The place that a path would have as a new entry, given what to answer when it
cannot name one: when its last name stands for no place of its own, or when it ends
in a slash and only a directory may. That is looked at before the length of the
name. -/
def newPlace (tree : Tree) (taken : Failure) (slashAllowed : Bool) (path : Path) :
    Except Failure Place := do
  let pieces := (← checked path).pieces
  let names := withoutEnd pieces
  let location ← tree.follow (tree.start path) names.dropLast
  match names.getLast? with
  | some name =>
    if !isOwnName name ∨ (pieces.getLast? = some "" ∧ !slashAllowed) then .error taken
    else if nameLimit < name.utf8ByteSize then .error .nameTooLong
    else .ok (location.place ++ [name])
  | none => .error taken

/-- Makes a file at the end of a path, or replaces the one that is there. A path
that ends in a slash can name no file. -/
def write (tree : Tree) (path : Path) (content : Content) : Except Failure Tree := do
  let place ← tree.newPlace .isDirectory false path
  match tree.at? place with
  | some .directory => .error .isDirectory
  | _ => .ok (tree.put place (.file content))

/-- Makes one directory at the end of a path. -/
def makeDirectory (tree : Tree) (path : Path) : Except Failure Tree := do
  let place ← tree.newPlace .alreadyThere true path
  match tree.at? place with
  | some _ => .error .alreadyThere
  | none => .ok (tree.put place .directory)

/-- What the directory at the end of a path shows of its entries. -/
def list (tree : Tree) (path : Path) : Except Failure (List Item) := do
  return (← tree.follow (tree.start path) (← checked path).pieces).held.items

/-- What is below the working directory, at places seen from there. -/
def below (tree : Tree) : List (Place × Entry) :=
  (tree.locate tree.workingDirectory).held.entries

/-- Path that a listing shows for an entry; one of a directory ends in a slash. -/
def listedPath : Place × Entry → Path
  | (place, .directory) => Path.ofPieces place ++ "/"
  | (place, .file _) => Path.ofPieces place

/-- What is below the working directory, in the order of the characters of the
listed paths. A slash is a character like any other there, so `a-b/` stands before
`a/`, and a directory stands before what is in it. -/
def sorted (tree : Tree) : List (Place × Entry) :=
  tree.below.mergeSort fun first second => !decide (listedPath second < listedPath first)

end Tree

end PegTemplates.Files
