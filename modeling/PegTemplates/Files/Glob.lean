import PegTemplates.Files.Host
import PegTemplates.Files.Pattern

/-!
# Paths that a pattern stands for

A path pattern is followed name by name. A name without wildcards is looked up
directly; any other is compared with the names in the directory, in the order of
their characters. Hidden names take part like all others, and a pattern that
starts with a point can stand for the directory itself and its parent as well.
The name `**` stands for the directory reached and everything below it.

Whether an entry is a directory is taken from the directory that shows it. So a
directory is still found when its path is too long to be looked up, and then it
cannot be read. Directories are entered up to a depth that no path text can exceed.
-/

namespace PegTemplates.Files

/-- Why the paths of a pattern cannot be found. -/
inductive GlobError where
  /-- The pattern is malformed. -/
  | pattern (error : PatternError)
  /-- A directory could not be read. -/
  | unreadable (path : Path) (failure : Failure)
  deriving DecidableEq, Repr, Inhabited

/-- Paths found so far in order, or why a directory could not be read. -/
abbrev Found := Except GlobError (List Path)

/-- What one search finds and then what another finds. -/
def Found.andThen (first next : Found) : Found := do
  return (← first) ++ (← next)

/-- The place where a relative search starts; paths found there are bare names. -/
def here : Path := "."

/-- Whether a path names the place where a relative search starts. -/
def isHere (path : Path) : Bool :=
  match path.pieces with
  | [] => false
  | first :: rest => first = here && rest.all isTrivial

/-- A name in a directory as a path. -/
def childOf (directory : Path) (name : String) : Path :=
  if isHere directory then name else directory.join name

/-- A path that a search has come to. -/
structure Candidate where
  /-- The path. -/
  path : Path
  /-- Whether it was seen to lead to a directory. -/
  isDirectory : Bool
  deriving DecidableEq, Repr, Inhabited

/-- The candidate that looking up a path gives. -/
def Candidate.lookUp {m : Type → Type} [Monad m] (host : Host m) (path : Path) :
    m Candidate := do
  return ⟨path, ← host.isDirectory path⟩

/-- The candidate that a directory shows. -/
def Candidate.ofItem (directory : Path) (item : Item) : Candidate :=
  ⟨childOf directory item.name, item.isDirectory⟩

/-- What is found when all names of the pattern have been followed. -/
def reached (directoriesOnly : Bool) (candidate : Candidate) : Found :=
  .ok (if candidate.isDirectory || !directoriesOnly then [candidate.path] else [])

/-- What each of several searches finds, in order. -/
def inOrder {m : Type → Type} [Monad m] {α : Type} (search : α → m Found) :
    List α → m Found
  | [] => return .ok []
  | first :: rest => do
    return (← search first).andThen (← inOrder search rest)

/-- The names that stand for a directory itself and for its parent, in the order
in which they are looked at. -/
def pointNames : List String := ["..", "."]

/-- Follows the patterns of the names to come from a candidate. Entries of a directory
are handed to `visit` together with the patterns. -/
def searchFrom {m : Type → Type} [Monad m] (host : Host m) (directoriesOnly : Bool)
    (visit : List Pattern → Candidate → m Found) : List Pattern → Candidate → m Found
  | [], candidate => return reached directoriesOnly candidate
  | pattern :: rest, candidate => do
    let arrive (path : Path) : m Found := do
      searchFrom host directoriesOnly visit rest (← Candidate.lookUp host path)
    if pattern.isLiteral then
      let next := childOf candidate.path pattern.text
      let found ←
        if pattern.text = "." ∨ pattern.text = ".." then pure candidate.isDirectory
        else host.isThere next
      if found then arrive next else return .ok []
    else if candidate.isDirectory then
      match ← host.list candidate.path with
      | .error failure => return .error (.unreadable candidate.path failure)
      | .ok items =>
        let points :=
          if pattern.startsWithPoint then pointNames.filter pattern.matchesName else []
        let first ← inOrder (fun name => arrive (candidate.path.join name)) points
        let sorted := items.mergeSort fun first second => !decide (second.name < first.name)
        let others ← inOrder
          (fun item => visit (pattern :: rest) (.ofItem candidate.path item)) sorted
        return first.andThen others
    else return .ok []

/-- Looks at an entry of a directory for the patterns of its name and the names to
come, through at most that many levels of directories. -/
def visitEntry {m : Type → Type} [Monad m] (host : Host m) (directoriesOnly : Bool) :
    (depth : Nat) → List Pattern → Candidate → m Found
  | 0, _, _ => return .ok []
  | depth + 1, patterns, candidate => do
    let search := searchFrom host directoriesOnly (visitEntry host directoriesOnly depth)
    let matchName : List Pattern → m Found
      | [] => return .ok []
      | pattern :: rest => do
        match candidate.path.fileName? with
        | none => return .ok []
        | some name =>
          if pattern.matchesName name then search rest candidate else return .ok []
    match patterns with
    | [] => return .ok []
    | pattern :: rest =>
      if pattern.isRecursive then
        let behind := rest.dropWhile Pattern.isRecursive
        if candidate.isDirectory then
          let below ← search (pattern :: behind) candidate
          match behind with
          | [] => return Found.andThen (.ok [candidate.path]) below
          | _ => return (← matchName behind).andThen below
        else matchName behind
      else matchName patterns

/-- The names of a path pattern: pieces between slashes, without an empty one at
the end. -/
def patternNames (text : String) : List String :=
  let pieces := (splitSlash text.toList).map String.ofList
  if pieces.getLast? = some "" then pieces.dropLast else pieces

/-- The paths that a pattern stands for, or what is wrong with it. -/
def glob {m : Type → Type} [Monad m] (host : Host m) (text : String) : m Found := do
  let absolute := Path.isAbsolute text
  let relative := if absolute then String.ofList (text.toList.drop 1) else text
  let parsed : Except PatternError (List Pattern) := do
    let _ ← Pattern.ofText text
    (if absolute ∧ relative.isEmpty then [""] else patternNames relative).mapM Pattern.ofText
  match parsed with
  | .error error => return .error (.pattern error)
  | .ok [] => return .ok []
  | .ok names =>
    let directoriesOnly := text.toList.getLast? = some '/'
    searchFrom host directoriesOnly (visitEntry host directoriesOnly Tree.pathLimit) names
      (← Candidate.lookUp host (if absolute then "/" else here))

end PegTemplates.Files
