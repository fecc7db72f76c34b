import PegTemplates.CommandLine.Help
import PegTemplates.RegistryView

/-!
# Running the program

Carries out an invocation on a host. Inputs are expanded before anything else
happens and are then handled one after the other; the first error ends the run.
Files that were written before it stay.
-/

namespace PegTemplates.CommandLine

open Files

variable {m : Type → Type} [Monad m]

/-- A step of a run, which an error may end. -/
abbrev RunM (m : Type → Type) := ExceptT RunError m

/-- A step that may fail, with the error that its failure is to the run. -/
def attempt {ε α : Type} (describe : ε → RunError) (step : m (Except ε α)) : RunM m α :=
  ExceptT.mk do return (← step).mapError describe

/-- Writes the events that are logged to the diagnostic output. -/
def writeEvents (host : Host m) (color : Bool) (verbosity : Nat) : List Event → m Unit
  | [] => return
  | event :: rest => do
    if isLogged verbosity event then host.report (eventLine color event)
    writeEvents host color verbosity rest

/-- Whether an input is a pattern. -/
def isPattern (text : String) : Bool := text.toList.any fun c => ['*', '?', '[', '\x7b'].contains c

/-- The error that a failing search is to the run. -/
def globFailure (text : String) : GlobError → RunError
  | .pattern error => .badPattern text error
  | .unreadable path failure => .unreadable path failure

/-- Paths that an input stands for. A pattern has to stand for some. -/
def expandInput (host : Host m) (text : String) : RunM m (List Path) := do
  if isPattern text then
    match ← attempt (globFailure text) (glob host text) with
    | [] => throw (.nothingMatched text)
    | paths => return paths
  else return [text]

/-- Paths that inputs stand for, in order. -/
def expandInputs (host : Host m) : List String → RunM m (List Path)
  | [] => return []
  | text :: rest => do
    let paths ← expandInput host text
    return paths ++ (← expandInputs host rest)

/-- Name of the output for an input. Without one nothing is written. -/
def outputName (request : FormatRequest) (path : Path) : Except RunError (Option String) :=
  if request.dryRun then .ok none
  else
    match request.name with
    | some name => .ok (some name)
    | none =>
      match path.fileStem? with
      | some stem => .ok (some stem)
      | none => .error (.noOutputName path)

/-- Generates the templates of one input. -/
def formatInput (host : Host m) (color : Bool) (verbosity : Nat) (request : FormatRequest)
    (path : Path) : RunM m Unit := do
  let name ← attempt id (return outputName request path)
  let options : GenerationOptions := ⟨request.directory, name, request.maxAlternatives⟩
  let report ← attempt (.generation path)
    (generateFromFile host (writeEvents host color verbosity) options path)
  host.report (doneLine color path report)

/-- Generates the templates of inputs in order. -/
def formatInputs (host : Host m) (color : Bool) (verbosity : Nat) (request : FormatRequest) :
    List Path → RunM m Unit
  | [] => return
  | path :: rest => do
    formatInput host color verbosity request path
    formatInputs host color verbosity request rest

/-- Carries out a request for templates. -/
def runFormat (host : Host m) (color : Bool) (verbosity : Nat) (request : FormatRequest) :
    RunM m Unit := do
  if request.name.isSome ∧ 1 < request.inputs.length then throw .oneNameForMany
  formatInputs host color verbosity request (← expandInputs host request.inputs)

/-- Written form of the registry of an input. -/
def dumpedValue (path : Path) (registry : Registry) : Json.Value :=
  .object [("grammar", .text path), ("registry", registry.view.value)]

/-- Written form of the registry of one input. -/
def dumpInput (host : Host m) (color : Bool) (verbosity : Nat) (path : Path) :
    RunM m Json.Value := do
  let grammar ← attempt .load (loadGrammar host path)
  (writeEvents host color verbosity grammar.buildEvents : m Unit)
  return dumpedValue path (← attempt (.building path) (return grammar.build))

/-- Written forms of the registries of inputs in order. -/
def dumpInputs (host : Host m) (color : Bool) (verbosity : Nat) :
    List Path → RunM m (List Json.Value)
  | [] => return []
  | path :: rest => do
    let first ← dumpInput host color verbosity path
    return first :: (← dumpInputs host color verbosity rest)

/-- Writes a dump to a file, whose directory is made first. -/
def writeDump (host : Host m) (path : Path) (text : String) : RunM m Unit := do
  match path.parent? with
  | some parent => attempt .noDirectory (makeDirectories host parent)
  | none => pure ()
  attempt (.unwritable path) (host.write path (utf8 text))

/-- Carries out a request for registries. -/
def runDump (host : Host m) (color : Bool) (verbosity : Nat) (request : DumpRequest) :
    RunM m Unit := do
  let paths ← expandInputs host request.inputs
  let text := (Json.Value.array (← dumpInputs host color verbosity paths)).pretty
  match request.output with
  | some path => writeDump host path text
  | none => host.print (text ++ "\n")

/-- Carries out a request. -/
def runRequest (host : Host m) (color : Bool) (invocation : Invocation) : RunM m Unit :=
  match invocation.request with
  | .format request => runFormat host color invocation.verbosity request
  | .dump request => runDump host color invocation.verbosity request

/-- How a run ends. -/
inductive ExitStatus where
  /-- Everything was done. -/
  | success
  /-- An error ended the run. -/
  | failure
  /-- The command line could not be understood. -/
  | misuse
  deriving DecidableEq, Repr, Inhabited

/-- Number by which the status is known outside. -/
def ExitStatus.code : ExitStatus → Nat
  | success => 0
  | failure => 1
  | misuse => 2

/-- Runs the program with command-line arguments. -/
def run (host : Host m) (color : Bool) (arguments : List String) : m ExitStatus := do
  match Invocation.read arguments with
  | .error (.help topic) => do
    host.print (topic.page.text color)
    return .success
  | .error .usage => do
    host.report (Topic.program.page.text color)
    return .misuse
  | .ok invocation =>
    match ← (runRequest host color invocation).run with
    | .ok _ => return .success
    | .error error => do
      host.report (errorText error.messages)
      return .failure

end PegTemplates.CommandLine
