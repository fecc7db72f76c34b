import PegTemplates.Files.Tree

/-!
# Hosts

What a program may ask of the machine it runs on: files, directories and two
output streams. A host over a tree of files answers without a machine.
-/

namespace PegTemplates.Files

/-- Requests to the machine, answered in `m`. -/
structure Host (m : Type → Type) where
  /-- Content of a file. -/
  read : Path → m (Except Failure Content)
  /-- Makes or replaces a file. -/
  write : Path → Content → m (Except Failure Unit)
  /-- Makes one directory. -/
  makeDirectory : Path → m (Except Failure Unit)
  /-- What a directory shows of its entries, in any order. -/
  list : Path → m (Except Failure (List Item))
  /-- Whether something is at the end of a path. -/
  isThere : Path → m Bool
  /-- Whether a directory is at the end of a path. -/
  isDirectory : Path → m Bool
  /-- Writes to the output. -/
  print : String → m Unit
  /-- Writes to the diagnostic output. -/
  report : String → m Unit

/-- A machine as a value: its files and what it has written so far. -/
structure Machine where
  /-- Files and directories. -/
  files : Tree
  /-- What was written to the output. -/
  output : String
  /-- What was written to the diagnostic output. -/
  diagnostics : String
  deriving Inhabited

/-- A machine with those files that has written nothing. -/
def Machine.withFiles (files : Tree) : Machine := ⟨files, "", ""⟩

/-- A step that changes the files or fails. -/
def changeFiles (step : Tree → Except Failure Tree) : StateM Machine (Except Failure Unit) :=
  modifyGet fun machine =>
    match step machine.files with
    | .ok files => (.ok (), { machine with files := files })
    | .error failure => (.error failure, machine)

/-- A question about the files. -/
def askFiles {α : Type} (question : Tree → α) : StateM Machine α := do
  return question (← get).files

/-- Whether a lookup succeeded. -/
def succeeded {ε α : Type} : Except ε α → Bool
  | .ok _ => true
  | .error _ => false

/-- The host that answers from a machine value. -/
def machineHost : Host (StateM Machine) where
  read path := askFiles (·.read path)
  write path content := changeFiles (·.write path content)
  makeDirectory path := changeFiles (·.makeDirectory path)
  list path := askFiles (·.list path)
  isThere path := askFiles fun files => succeeded (files.lookup path)
  isDirectory path := askFiles fun files => files.lookup path matches .ok .directory
  print text := modify fun machine => { machine with output := machine.output ++ text }
  report text := modify fun machine => { machine with diagnostics := machine.diagnostics ++ text }

/-- Makes the directories of the list, latest last. One that is already there is
no failure. -/
def makeEach {m : Type → Type} [Monad m] (host : Host m) :
    List Path → m (Except Failure Unit)
  | [] => return .ok ()
  | path :: rest => do
    match ← host.makeDirectory path with
    | .ok _ => makeEach host rest
    | .error failure =>
      if ← host.isDirectory path then makeEach host rest else return .error failure

/-- Makes the first directory of the list whose parent is there; the list goes
upward. The directories below it are made after it. -/
def makeUpward {m : Type → Type} [Monad m] (host : Host m) (below : List Path) :
    List Path → m (Except Failure Unit)
  | [] => makeEach host below
  | path :: above => do
    if path.isEmpty ∨ path.parent? = none then makeEach host below
    else
      match ← host.makeDirectory path with
      | .ok _ => makeEach host below
      | .error .notFound => makeUpward host (path :: below) above
      | .error failure =>
        if ← host.isDirectory path then makeEach host below else return .error failure

/-- Makes a directory with all directories above it that are missing. -/
def makeDirectories {m : Type → Type} [Monad m] (host : Host m) (path : Path) :
    m (Except Failure Unit) :=
  makeUpward host [] path.ancestors

end PegTemplates.Files
