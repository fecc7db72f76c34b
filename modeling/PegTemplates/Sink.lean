import PegTemplates.Emission

/-!
# Sinks

A sink takes the pieces of an emission one after the other and may fail at any
of them. The pieces written before a failure stay written, and no piece is
written after it. Shapes are written one by one, each before the next one is
looked at, and the report grows along. A run into memory puts all pieces into
one text.
-/

namespace PegTemplates

/-- Where pieces of text are written to: a step on the state of the sink, which
is kept when the step fails. -/
abbrev Sink (ε σ : Type) := String → EStateM ε σ Unit

/-- Writes an emission piece by piece and reports on it. -/
def Emission.writeTo {ε σ : Type} (emission : Emission) (sink : Sink ε σ) :
    EStateM ε σ Report := do
  emission.writes.forM sink
  return emission.report

section Write

variable {ε σ : Type} (sink : Sink ε σ)

/-- Writes a line, its text and its end in a piece each. -/
def Sink.writeLine (line : String) : EStateM ε σ Unit := do
  sink line
  sink "\n"

/-- Writes a block: a head line, the label list, the body between backticks, and
an empty line. -/
def Sink.writeBlock (block : Block) : EStateM ε σ Unit := do
  sink.writeLine s!"format #{block.tag}"
  sink s!"({block.labels})`"
  sink block.body
  sink.writeLine "`"
  sink.writeLine ""

/-- Writes the blocks of a shape and adds the shape to the report on those before
it. A shape that is left out is only reported. -/
def Sink.writeShape (report : Report) (emission : ShapeEmission) : EStateM ε σ Report := do
  let truncated := report.truncated ++ emission.truncated.map (emission.shape.id, ·)
  match emission.outcome with
  | .error reason =>
    return { report with
      skipped := report.skipped ++ [(emission.shape.id, reason)]
      truncated := truncated }
  | .ok blocks =>
    blocks.forM sink.writeBlock
    return { report with
      blocks := report.blocks + blocks.length
      truncated := truncated }

/-- The report on a number of shapes before the first of them is written. -/
def Report.start (shapes : Nat) : Report := ⟨shapes, 0, [], []⟩

/-- Writes the blocks of all shapes to a sink, shape by shape, looking at `limit`
bindings per shape and tag, and reports on them. -/
def Registry.emit (registry : Registry) (limit : Nat) : EStateM ε σ Report :=
  let tags := registry.tagTable
  registry.shapes.foldlM
    (fun report shape => sink.writeShape report (registry.emitShape tags limit shape))
    (.start registry.size)

end Write

/-- What a recording sink has seen. -/
structure Recording where
  /-- Pieces accepted, in the order in which they were written. -/
  pieces : List String
  deriving DecidableEq, Repr, Inhabited

/-- A sink that records the pieces and refuses the one of the given number, which
is the failure it reports. -/
def Sink.recording (refused : Option Nat) : Sink Nat Recording := fun piece => do
  let recording ← get
  if refused = some recording.pieces.length then throw recording.pieces.length
  set (⟨recording.pieces ++ [piece]⟩ : Recording)

/-- A sink that puts the pieces behind one another. It takes every piece. -/
def Sink.collecting : Sink Empty String := fun piece => modify (· ++ piece)

/-- Collecting pieces puts all of them behind what was collected before. -/
theorem Sink.forM_collecting (pieces : List String) (text : String) :
    (pieces.forM Sink.collecting).run text = .ok ⟨⟩ (text ++ String.join pieces) := by
  induction pieces generalizing text with
  | nil => exact congrArg _ (String.append_empty).symm
  | cons piece rest ih =>
    refine (ih (text ++ piece)).trans ?_
    rw [String.join_cons, String.append_assoc]

/-- The text into which all pieces of an emission are written, and the report on it. -/
def Emission.collected (emission : Emission) : String × Report :=
  match (emission.writeTo Sink.collecting).run "" with
  | .ok report text => (text, report)

/-- What is collected of an emission is its text. -/
theorem Emission.collected_eq (emission : Emission) :
    emission.collected = (emission.text, emission.report) := by
  have hpieces := Sink.forM_collecting emission.writes ""
  rw [String.empty_append] at hpieces
  have hrun : (emission.writeTo Sink.collecting).run "" = .ok emission.report emission.text := by
    rw [writeTo, EStateM.run_bind, hpieces]
    rfl
  rw [collected, hrun]

/-- Text and report of a whole run into memory, or what keeps the grammar from being
built. -/
def Grammar.generateText (grammar : Grammar) (limit : Nat) :
    Except AnalysisError (String × Report) := do
  return (← grammar.generate limit).collected

end PegTemplates
