import PegTemplates.Builder
import PegTemplates.Expansion
import PegTemplates.TagSearch
import PegTemplates.Template
import Std.Data.TreeSet.Lemmas

/-!
# Emission of template blocks

For every shape and each of its tags, the templates of all bindings are written
as blocks, in the order of shape numbers, of discovery of the tags and of
binding indices. Bindings that give the same label list and the same body are
written once, and no more bindings than the given limit are looked at. A shape
in which a reference cannot be resolved is left out as a whole.
-/

namespace PegTemplates

/-- Number of bindings per shape and tag that are looked at unless told
otherwise. -/
def defaultMaxAlternatives : Nat := 4096

/-- One template block. -/
structure Block where
  /-- Tag that heads the block. -/
  tag : String
  /-- Label list of the binding. -/
  labels : String
  /-- Template of the binding. -/
  body : String
  deriving DecidableEq, Repr, Inhabited

/-- The pieces in which a block is written: a head line, the label list, the
body between backticks, and an empty line. -/
def Block.writes (block : Block) : List String :=
  [s!"format #{block.tag}", "\n", s!"({block.labels})`", block.body, "`", "\n", "", "\n"]

/-- Text of a block. -/
def Block.text (block : Block) : String := String.join block.writes

/-- What was written and what was left out. -/
structure Report where
  /-- Number of shapes. -/
  shapes : Nat
  /-- Number of blocks written. -/
  blocks : Nat
  /-- Shapes left out, each with the reason. -/
  skipped : List (ShapeId × AnalysisError)
  /-- Shapes and tags of which not all bindings were looked at. -/
  truncated : List (ShapeId × String)
  deriving DecidableEq, Repr, Inhabited

/-- What emission gives for one shape. -/
structure ShapeEmission where
  /-- The shape. -/
  shape : Shape
  /-- Tags of which not all bindings were looked at. -/
  truncated : List String
  /-- The blocks of the shape, or the reason why it is left out. -/
  outcome : Except AnalysisError (List Block)
  /-- What was reported. -/
  events : List Event

namespace ShapeEmission

/-- Blocks of the shape; a shape that is left out has none. -/
def blocks (emission : ShapeEmission) : List Block :=
  match emission.outcome with
  | .ok blocks => blocks
  | .error _ => []

/-- The entry of a shape that is left out. -/
def skipped? (emission : ShapeEmission) : Option (ShapeId × AnalysisError) :=
  match emission.outcome with
  | .ok _ => none
  | .error reason => some (emission.shape.id, reason)

/-- Everything reported for the shape; that it is left out comes last. -/
def allEvents (emission : ShapeEmission) : List Event :=
  match emission.outcome with
  | .ok _ => emission.events
  | .error reason => emission.events ++ [.shapeSkipped emission.shape reason]

end ShapeEmission

/-- What emission gives for a registry, shape by shape. -/
structure Emission where
  /-- Every shape in order of numbers. -/
  shapes : List ShapeEmission

namespace Emission

/-- Blocks in the order in which they are written. -/
def blocks (emission : Emission) : List Block := emission.shapes.flatMap (·.blocks)

/-- Pieces in the order in which they are written. -/
def writes (emission : Emission) : List String := emission.blocks.flatMap (·.writes)

/-- The whole text. -/
def text (emission : Emission) : String := String.join emission.writes

/-- The report of the emission. -/
def report (emission : Emission) : Report where
  shapes := emission.shapes.length
  blocks := emission.blocks.length
  skipped := emission.shapes.filterMap (·.skipped?)
  truncated := emission.shapes.flatMap fun each => each.truncated.map (each.shape.id, ·)

/-- Everything reported, in order. -/
def events (emission : Emission) : List Event := emission.shapes.flatMap (·.allEvents)

end Emission

/-- Template of a binding, with the default body where it renders nothing. -/
def Binding.body (named : Bool) (binding : Binding) : String :=
  (render named binding.layout).getD defaultBody

/-- An order of blocks in which only equal blocks are level. -/
def Block.order : Block → Block → Ordering :=
  compareLex (compareOn Block.labels) (compareLex (compareOn Block.body) (compareOn Block.tag))

instance : Std.TransCmp Block.order := inferInstanceAs (Std.TransCmp (compareLex _ _))

instance : Std.LawfulEqCmp Block.order where
  toReflCmp := inferInstance
  eq_of_compare := by
    intro first second level
    simp only [Block.order, compareLex_eq_eq, compareOn, Std.compare_eq_iff_eq] at level
    cases first
    cases second
    simp_all

/-- Blocks written so far. -/
structure Written where
  /-- The blocks, latest first. -/
  blocks : List Block
  /-- The same blocks, to look one up. -/
  index : Std.TreeSet Block Block.order
  /-- Both hold the same blocks. -/
  contains_iff : ∀ block, index.contains block = true ↔ block ∈ blocks

namespace Written

/-- No blocks. -/
def none : Written := ⟨[], ∅, by simp⟩

/-- Whether a block has been written. -/
def contains (written : Written) (block : Block) : Bool := written.index.contains block

/-- One more block. -/
def add (written : Written) (block : Block) : Written :=
  ⟨block :: written.blocks, written.index.insert block, by
    intro other
    have before := written.contains_iff other
    rw [Std.TreeSet.contains_insert, Bool.or_eq_true, before, List.mem_cons, beq_iff_eq,
      Std.LawfulEqCmp.compare_eq_iff_eq, eq_comm]⟩

end Written

/-- Distinct blocks in the order of their first occurrence, and the events for the
others, which are collected latest first. -/
def distinctBlocks (id : ShapeId) (tag : String) (named : Bool) :
    Written → List Event → List Binding → List Block × List Event
  | written, repeats, [] => (written.blocks.reverse, repeats.reverse)
  | written, repeats, binding :: rest =>
    let block : Block := ⟨tag, binding.labelList, binding.body named⟩
    if written.contains block then
      distinctBlocks id tag named written (.blockRepeated id tag binding.index :: repeats) rest
    else distinctBlocks id tag named (written.add block) repeats rest

/-- The first bindings of a layout, at most `limit` many. -/
def firstBindings (tags : TagTable) (nodes : List Node) (limit : Nat) : List Binding :=
  (List.range (min (rateOf nodes) limit)).filterMap (resolve tags nodes)

/-- The alternative of a shape without tags: a named shape goes by its name, an
unnamed one has nothing to write. -/
def Shape.fallback (shape : Shape) : List TagAlternative :=
  match shape.name with
  | some name => [⟨name, shape.elements⟩]
  | none => []

namespace Registry

/-- The alternatives under which a shape is written, or the undefined rule that
keeps it from being written. -/
def written (registry : Registry) (shape : Shape) : Except AnalysisError (List TagAlternative) :=
  match registry.firstUndefined? shape.elements with
  | some reason => .error reason
  | none =>
    match registry.tagAlternatives shape.elements with
    | .ok [] => .ok shape.fallback
    | found => found

/-- The tags under which each shape is written. Link labels name these. -/
def tagTable (registry : Registry) : TagTable :=
  registry.shapes.map fun shape =>
    match registry.written shape with
    | .ok alternatives => alternatives.map (·.tag)
    | .error _ => []

/-- Emission of a shape from its alternatives. An alternative that cannot be
laid out ends it, and what was reported until then stays. -/
def emitAlternatives (registry : Registry) (tags : TagTable) (limit : Nat) (shape : Shape) :
    List TagAlternative → ShapeEmission
  | [] => ⟨shape, [], .ok [], []⟩
  | ⟨tag, elements⟩ :: rest =>
    let laidOut := registry.layoutEvents elements
    match registry.layout elements with
    | .error reason => ⟨shape, [], .error reason, laidOut⟩
    | .ok nodes =>
      let rate := rateOf nodes
      let cut := limit < rate
      let (blocks, repeats) := distinctBlocks shape.id tag shape.name.isSome .none []
        (firstBindings tags nodes limit)
      let others := emitAlternatives registry tags limit shape rest
      { shape := shape
        truncated := (if cut then [tag] else []) ++ others.truncated
        outcome := others.outcome.map (blocks ++ ·)
        events := laidOut ++ [.alternativesCounted shape.id tag rate] ++
          (if cut then [.alternativesCut shape tag rate limit] else []) ++ repeats ++
          others.events }

/-- Emission of one shape. -/
def emitShape (registry : Registry) (tags : TagTable) (limit : Nat) (shape : Shape) :
    ShapeEmission :=
  match registry.written shape with
  | .error reason => ⟨shape, [], .error reason, []⟩
  | .ok alternatives =>
    let emission := registry.emitAlternatives tags limit shape alternatives
    { emission with events := .tagsFound shape alternatives.length :: emission.events }

/-- Emission of all shapes, looking at `limit` bindings per shape and tag. -/
def emission (registry : Registry) (limit : Nat) : Emission :=
  let tags := registry.tagTable
  ⟨registry.shapes.map (registry.emitShape tags limit)⟩

end Registry

/-- What a whole run gives: the emission of a grammar, or what keeps it from
being built. -/
def Grammar.generate (grammar : Grammar) (limit : Nat) : Except AnalysisError Emission := do
  return (← grammar.build).emission limit

/-- Everything reported in a whole run, whether or not it succeeds. -/
def Grammar.generateEvents (grammar : Grammar) (limit : Nat) : List Event :=
  grammar.buildEvents ++
    match grammar.generate limit with
    | .ok emission => emission.events
    | .error _ => []

end PegTemplates
