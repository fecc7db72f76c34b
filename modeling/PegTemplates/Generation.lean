import PegTemplates.Document.Reader
import PegTemplates.Emission
import PegTemplates.Files.Host

/-!
# Generation of template files

Reads a grammar document from a file and writes its templates into another one.
A grammar that cannot be read or built touches no file. Without a file name the
templates are only counted.
-/

namespace PegTemplates

open Files

/-- Why a grammar file cannot be loaded. -/
inductive LoadError where
  /-- The file cannot be read. -/
  | unreadable (path : Path) (failure : Failure)
  /-- The file is no grammar document. -/
  | malformed (origin : String) (fault : Json.Fault)

/-- Wording of an error and of what caused it, the outermost first. -/
def LoadError.messages : LoadError → List String
  | unreadable path failure => [s!"failed to read {path}", failure.message]
  | malformed origin fault => [fault.message origin, fault.cause.message]

/-- Why templates cannot be generated. -/
inductive GenerationError where
  /-- The grammar cannot be built. -/
  | analysis (reason : AnalysisError)
  /-- The output cannot be written. -/
  | unwritable (path : Path) (failure : Failure)
  /-- The grammar cannot be loaded. -/
  | load (error : LoadError)

/-- Wording of an error and of what caused it, the outermost first. -/
def GenerationError.messages : GenerationError → List String
  | analysis reason => [reason.message]
  | unwritable path failure => [s!"failed writing templates to {path}", failure.message]
  | load error => error.messages

/-- What to generate and where. -/
structure GenerationOptions where
  /-- Directory of the output. -/
  directory : Path
  /-- Name of the output file without its extension; nothing is written without
  one. -/
  fileName : Option String
  /-- Number of bindings per shape and tag that are looked at. -/
  maxAlternatives : Nat
  deriving Repr, Inhabited

/-- Path of the output file. -/
def GenerationOptions.outputPath? (options : GenerationOptions) : Option Path :=
  options.fileName.map fun name => options.directory.join (name ++ ".txt")

/-- Loads a grammar from a file. -/
def loadGrammar {m : Type → Type} [Monad m] (host : Host m) (path : Path) :
    m (Except LoadError Grammar) := do
  match ← host.read path with
  | .error failure => return .error (.unreadable path failure)
  | .ok content =>
    match Document.ofBytes content with
    | .ok grammar => return .ok grammar
    | .error fault => return .error (.malformed path fault)

/-- UTF-8 of a text. -/
def utf8 (text : String) : Content := text.toUTF8.data.toList

/-- Writes an emission to a file, whose directory is made first. Events of the
emission come once the file is there. -/
def writeEmission {m : Type → Type} [Monad m] (host : Host m) (log : List Event → m Unit)
    (directory : Path) (path : Path) (emission : Emission) : m (Except GenerationError Report) := do
  log [.generating path]
  match ← makeDirectories host directory with
  | .error failure => return .error (.unwritable path failure)
  | .ok _ =>
    match ← host.write path (utf8 emission.text) with
    | .error failure => return .error (.unwritable path failure)
    | .ok _ =>
      log emission.events
      return .ok emission.report

/-- Generates the templates of a grammar. -/
def generateTemplates {m : Type → Type} [Monad m] (host : Host m) (log : List Event → m Unit)
    (options : GenerationOptions) (grammar : Grammar) : m (Except GenerationError Report) := do
  log grammar.buildEvents
  match grammar.generate options.maxAlternatives with
  | .error reason => return .error (.analysis reason)
  | .ok emission =>
    match options.outputPath? with
    | none =>
      log emission.events
      return .ok emission.report
    | some path => writeEmission host log options.directory path emission

/-- Generates the templates of a grammar file. -/
def generateFromFile {m : Type → Type} [Monad m] (host : Host m) (log : List Event → m Unit)
    (options : GenerationOptions) (source : Path) : m (Except GenerationError Report) := do
  match ← loadGrammar host source with
  | .error error => return .error (.load error)
  | .ok grammar => generateTemplates host log options grammar

end PegTemplates
