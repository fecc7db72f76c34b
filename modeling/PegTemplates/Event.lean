import PegTemplates.Registry

/-!
# Events

What the analysis reports while it runs, apart from its result. An event is
kept as what happened; its severity and wording are functions of it.
-/

namespace PegTemplates

/-- How much an event matters, from the gravest to the most detailed. -/
inductive Severity where
  /-- A failure. -/
  | error
  /-- Something was left out or overridden. -/
  | warn
  /-- A step of the run. -/
  | info
  /-- A result of an intermediate step. -/
  | debug
  /-- A decision inside an intermediate step. -/
  | trace
  deriving DecidableEq, Repr, Inhabited

/-- Name of a severity. -/
def Severity.label : Severity → String
  | .error => "error"
  | .warn => "warn"
  | .info => "info"
  | .debug => "debug"
  | .trace => "trace"

/-- Position of a severity: the gravest comes first. -/
def Severity.rank : Severity → Nat
  | .error => 1
  | .warn => 2
  | .info => 3
  | .debug => 4
  | .trace => 5

/-- A shape as events mention it: its number, and its name if it has one. -/
def Shape.label (shape : Shape) : String :=
  match shape.name with
  | some name => s!"{shape.id} ({name})"
  | none => toString shape.id

/-- Something the analysis reports. -/
inductive Event where
  /-- A rule was built into a sequence. -/
  | ruleBuilt (rule : String) (elements : List Element)
  /-- A rule took the place of an earlier one of its name. -/
  | ruleRedefined (rule : String)
  /-- A reference was met again while a sequence was laid out. -/
  | repeatedReference (rule : String)
  /-- A reference was met again inside one link body. -/
  | repeatedReferenceInLink (rule : String)
  /-- The tags of a shape were counted. -/
  | tagsFound (shape : Shape) (count : Nat)
  /-- The bindings of a shape under one tag were counted. -/
  | alternativesCounted (id : ShapeId) (tag : String) (rate : Nat)
  /-- A shape has more bindings under one tag than are written. -/
  | alternativesCut (shape : Shape) (tag : String) (rate limit : Nat)
  /-- A binding gave a block that an earlier one had given. -/
  | blockRepeated (id : ShapeId) (tag : String) (index : Nat)
  /-- A shape was left out. -/
  | shapeSkipped (shape : Shape) (reason : AnalysisError)
  /-- Templates are about to be written to a file. -/
  | generating (path : String)
  deriving Repr, Inhabited

namespace Event

/-- How much the event matters. -/
def severity : Event → Severity
  | ruleBuilt .. | tagsFound .. | alternativesCounted .. => .debug
  | ruleRedefined .. | alternativesCut .. | shapeSkipped .. => .warn
  | repeatedReference .. | repeatedReferenceInLink .. | blockRepeated .. => .trace
  | generating .. => .info

/-- Wording of the event. -/
def message : Event → String
  | ruleBuilt rule elements => s!"rule `{rule}`: {displaySequence elements}"
  | ruleRedefined rule => s!"rule `{rule}` defined more than once; keeping the last definition"
  | repeatedReference rule => s!"cycle guard: `{rule}` already expanded at this site"
  | repeatedReferenceInLink rule => s!"cycle guard: `{rule}` already expanded inside this link"
  | tagsFound shape count => s!"shape {shape.label}: {count} tag(s)"
  | alternativesCounted id tag rate => s!"shape {id} #{tag}: {rate} alternative(s)"
  | alternativesCut shape tag rate limit =>
    s!"shape {shape.label} #{tag}: {rate} alternatives, keeping the first {limit}"
  | blockRepeated id tag index => s!"shape {id} #{tag}: index {index} repeats a block"
  | shapeSkipped shape reason => s!"skipping shape {shape.label}: {reason.message}"
  | generating path => s!"generating {path}"

end Event

end PegTemplates
