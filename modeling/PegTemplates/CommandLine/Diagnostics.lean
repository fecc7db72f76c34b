import PegTemplates.Files.Glob
import PegTemplates.Generation

/-!
# Diagnostics of a run

Lines for the diagnostic output. Logged events carry the name of their severity
in front; an error that ends the run is written with everything that caused it.
Labels are coloured on request.
-/

namespace PegTemplates.CommandLine

open Files

/-- A text with terminal attributes, or as it is. -/
def painted (color : Bool) (attributes text : String) : String :=
  if color then "\x1b[" ++ attributes ++ "m" ++ text ++ "\x1b[0m" else text

/-- Terminal attributes of the name of a severity. -/
def severityAttributes : Severity → String
  | .error => "1;31"
  | .warn => "1;33"
  | .info => "32"
  | .debug => "34"
  | .trace => "2"

/-- Line for an event. -/
def eventLine (color : Bool) (event : Event) : String :=
  let severity := event.severity
  s!"{painted color (severityAttributes severity) severity.label}: {event.message}\n"

/-- Whether an event is logged: warnings always are, and each step of verbosity
adds the next severity. -/
def isLogged (verbosity : Nat) (event : Event) : Bool :=
  event.severity.rank ≤ Severity.warn.rank + verbosity

/-- Line for an input whose templates have been generated. -/
def doneLine (color : Bool) (path : Path) (report : Report) : String :=
  let done := painted color "1;32" "done"
  let counts := s!"{report.shapes} shape(s), {report.blocks} block(s)"
  let losses := s!"{report.skipped.length} skipped, {report.truncated.length} truncated"
  s!"{done} {path}: {counts}, {losses}\n"

/-- Why a run ends early. -/
inductive RunError where
  /-- One output name for more than one input. -/
  | oneNameForMany
  /-- An input pattern is malformed. -/
  | badPattern (text : String) (error : PatternError)
  /-- An input pattern stands for no file. -/
  | nothingMatched (text : String)
  /-- A directory could not be searched. -/
  | unreadable (path : Path) (failure : Failure)
  /-- An input gives no name for its output. -/
  | noOutputName (path : Path)
  /-- Templates of an input could not be generated. -/
  | generation (path : Path) (error : GenerationError)
  /-- An input could not be loaded. -/
  | load (error : LoadError)
  /-- The grammar of an input could not be built. -/
  | building (path : Path) (reason : AnalysisError)
  /-- The directory of the output could not be made. -/
  | noDirectory (failure : Failure)
  /-- The output could not be written. -/
  | unwritable (path : Path) (failure : Failure)

/-- Wording of an error and of what caused it, the outermost first. -/
def RunError.messages : RunError → List String
  | oneNameForMany => ["--name takes exactly one input; without it outputs follow input stems"]
  | badPattern text error => [s!"bad glob pattern: {text}", error.message]
  | nothingMatched text => [s!"glob pattern matched no files: {text}"]
  | unreadable path failure =>
    [s!"attempting to read `{path}` resulted in an error: {failure.message}"]
  | noOutputName path => [s!"cannot derive an output name from {path}"]
  | generation path error => s!"generating templates for {path}" :: error.messages
  | load error => error.messages
  | building path reason => [s!"building {path}", reason.message]
  | noDirectory failure => [failure.message]
  | unwritable path failure => [s!"writing {path}", failure.message]

/-- A text whose first line has that lead and whose other lines are moved in by as
many blanks. -/
def ledBy (lead text : String) : String :=
  let blanks := String.ofList (List.replicate lead.length ' ')
  lead ++ text.replace "\n" ("\n" ++ blanks)

/-- Number of a cause, right-aligned in five columns. -/
def causeNumber (index : Nat) : String :=
  let digits := toString index
  String.ofList (List.replicate (5 - digits.length) ' ') ++ digits ++ ": "

/-- Causes of an error, numbered if there are several. -/
def causeLines : List String → List String
  | [] => []
  | [cause] => [ledBy "    " cause]
  | causes => causes.zipIdx.map fun (cause, index) => ledBy (causeNumber index) cause

/-- Text of an error with what caused it. -/
def errorText : List String → String
  | [] => ""
  | message :: causes =>
    let lines := match causes with
      | [] => []
      | _ => ["", "Caused by:"] ++ causeLines causes
    "\n".intercalate (("Error: " ++ message) :: lines) ++ "\n"

end PegTemplates.CommandLine
