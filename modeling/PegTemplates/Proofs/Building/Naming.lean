import PegTemplates.Proofs.Building.Closings
import PegTemplates.Proofs.Building.Registration

/-!
# Names of shapes

A rule that is added gives its name to the shape that makes up its whole body. That shape
is one of those registered for the rule, because a body captures no earlier shape. So a
rule only adds to a registry: its shapes, one of them perhaps under its name, and its body.
-/

namespace PegTemplates

/-- Shapes of which the one that makes up the whole sequence is named. -/
def nameSole (name : String) (elements : List Element) (shapes : List Shape) : List Shape :=
  shapes.map fun shape =>
    if Registry.soleCapture elements = some shape.id then shape.nameOnce name else shape

/-- The body of a rule built with these next numbers, and the shapes registered for it. -/
def Rule.yield (rule : Rule) (nextShape nextSite : Nat) : Yield where
  elements := (rule.run nextShape nextSite).scopes.flatMap (·.elements)
  shapes := (rule.run nextShape nextSite).shapes

/-- A yield with the shape named that makes up its whole body. -/
def Yield.named (name : String) (yield : Yield) : Yield :=
  ⟨yield.elements, nameSole name yield.elements yield.shapes⟩

/-- A registry with one more body and the shapes registered for it. -/
def Registry.extend (registry : Registry) (name : String) (yield : Yield) : Registry :=
  ⟨registry.shapes ++ yield.shapes, putBody ⟨name, yield.elements⟩ registry.rules⟩

/-- Nodes that close in the run of a whole rule. -/
def Rule.closings (rule : Rule) (nextShape nextSite : Nat) : List Closing :=
  Assembly.closings ⟨nextShape, [], nextSite, [.opened .root], [], []⟩ [none] rule.expr.steps

section Run

variable (rule : Rule) (nextShape nextSite : Nat)

/-- The shapes of a rule are the nodes that close in it. -/
theorem Rule.shapes_run : (rule.run nextShape nextSite).shapes =
    Closing.shapes nextShape (rule.closings nextShape nextSite) :=
  Assembly.shapes_run ⟨nextShape, [], nextSite, [.opened .root], [], []⟩ [none] rule.expr.steps

/-- The nodes that close in a rule are what its run comes to. -/
theorem Rule.sound_closings {position : Nat} {closing : Closing}
    (hclosing : (rule.closings nextShape nextSite)[position]? = some closing) :
    closing.Sound (nextShape + position) := by
  let start : Assembly := ⟨nextShape, [], nextSite, [.opened .root], [], []⟩
  have hgrounded : start.Grounded := Assembly.grounded_root nextShape nextSite
  have hregistered : start.Registered :=
    ⟨Multiset.zero_subset _, fun _ hid => absurd hid (Multiset.notMem_zero _)⟩
  have hled : start.Led [none] := .cons (Scope.ledBy_none _) .nil
  exact Assembly.sound_closings hregistered hgrounded hled rule.expr.steps hclosing

end Run

/-- The numbers of shapes are the ones from the first on. -/
theorem Closing.getElem?_id_shapes {first : ShapeId} {closings : List Closing} {position : Nat}
    {shape : Shape} (hshape : (shapes first closings)[position]? = some shape) :
    shape.id = first + position ∧ shape.name = none := by
  rw [getElem?_shapes] at hshape
  obtain ⟨closing, _, rfl⟩ := Option.map_eq_some_iff.mp hshape
  exact ⟨rfl, rfl⟩

/-- A change of a shape behind others is one of the later shapes, which are known by their
numbers. -/
theorem modify_append_of_le {shapes later : List Shape} {id : ShapeId} (hid : shapes.length ≤ id)
    (hlater : ∀ {position shape}, later[position]? = some shape →
      shape.id = shapes.length + position) (change : Shape → Shape) :
    (shapes ++ later).modify id change =
      shapes ++ later.map fun shape => if id = shape.id then change shape else shape := by
  apply List.ext_getElem?
  intro position
  rw [List.getElem?_modify]
  rcases Nat.lt_or_ge position shapes.length with hlt | hge
  · have hother : id ≠ position := (Nat.lt_of_lt_of_le hlt hid).ne'
    rw [List.getElem?_append_left hlt, List.getElem?_append_left hlt]
    simp [hother]
  · rw [List.getElem?_append_right hge, List.getElem?_append_right hge, List.getElem?_map]
    cases hshape : later[position - shapes.length]? with
    | none => rfl
    | some shape =>
      have hnumber : shape.id = position := by
        rw [hlater hshape]
        exact Nat.add_sub_cancel' hge
      simp [hnumber]

/-- A sequence that is made up by one shape captures it. -/
theorem mem_capturesOf_of_sole {elements : List Element} {id : ShapeId}
    (hsole : elements = [.captured id]) : id ∈ capturesOf elements := by
  rw [hsole]
  exact List.mem_singleton.mpr rfl

/-- Whether adding a rule to a builder adds its yield to the registry. -/
structure Builder.Adds (builder : Builder) (rule : Rule) (after : Builder) : Prop where
  /-- The body is registered with its shapes, of which one may be named. -/
  registry : after.registry = builder.registry.extend rule.name
    ((rule.yield builder.registry.size builder.nextSite).named rule.name)
  /-- The numbers of the shapes are handed out. -/
  size : after.registry.size = (rule.run builder.registry.size builder.nextSite).nextShape
  /-- The sites are handed out. -/
  nextSite : after.nextSite = (rule.run builder.registry.size builder.nextSite).nextSite
  /-- Only shapes registered for the rule are captured in its body. -/
  captures : ∀ id ∈ capturesOf (rule.yield builder.registry.size builder.nextSite).elements,
    builder.registry.size ≤ id ∧ id < after.registry.size

/-- A rule that is built holds its yield. -/
theorem Builder.Builds.yield {builder after : Builder} {rule : Rule} {elements : List Element}
    (hbuilds : builder.Builds rule elements after) :
    rule.yield builder.registry.size builder.nextSite = ⟨elements, builder.shapesUntil after⟩ := by
  obtain ⟨root, hscopes, rfl⟩ := hbuilds.scopes
  rw [Rule.yield, hscopes, List.flatMap_singleton, hbuilds.shapesUntil]

/-- Registering the body of a rule that is built adds its yield to the registry from before. -/
theorem Builder.Builds.registerRule {builder after : Builder} {rule : Rule}
    {elements : List Element} (hbuilds : builder.Builds rule elements after)
    (hcaptures : ∀ id ∈ capturesOf elements, builder.registry.size ≤ id) :
    after.registry.registerRule rule.name elements = builder.registry.extend rule.name
      ((rule.yield builder.registry.size builder.nextSite).named rule.name) := by
  rw [hbuilds.yield, Registry.registerRule, hbuilds.registry, ← hbuilds.shapesUntil]
  unfold Registry.extend Yield.named nameSole
  cases hsole : Registry.soleCapture elements with
  | none => simp
  | some id =>
    have hid := hcaptures id (mem_capturesOf_of_sole (Registry.soleCapture_eq_some_iff.mp hsole))
    have hnumbers : ∀ {position shape}, (builder.shapesUntil after)[position]? = some shape →
        shape.id = builder.registry.shapes.length + position := by
      intro position shape hshape
      rw [hbuilds.shapesUntil, rule.shapes_run] at hshape
      exact (Closing.getElem?_id_shapes hshape).1
    simp only [Option.some.injEq, modify_append_of_le hid hnumbers]

/-- A rule that is added adds its yield. -/
theorem Builder.adds_of_addRule {builder after : Builder} {rule : Rule}
    (hadd : builder.addRule rule = (.ok (), after)) : builder.Adds rule after := by
  obtain ⟨elements, built, _, hbuilds, hafter, hsite⟩ := builds_of_addRule hadd
  have hsize : after.registry.size = built.registry.size := by
    rw [hafter]
    exact Registry.size_registerRule built.registry rule.name elements
  have hcaptures : ∀ id ∈ capturesOf elements,
      builder.registry.size ≤ id ∧ id < after.registry.size := by
    intro id hid
    rw [hsize]
    refine (hbuilds.conserved.captures id).mp ?_
    rw [capturesOf_append]
    exact List.mem_append_left _ hid
  refine ⟨?_, hsize.trans hbuilds.size, hsite.trans hbuilds.nextSite, ?_⟩
  · rw [hafter]
    exact hbuilds.registerRule fun id hid => (hcaptures id hid).1
  · rw [hbuilds.yield]
    exact hcaptures

/-- Induction along rules that are added: what adding a rule keeps holds of all of them and of
the builder behind them. -/
theorem Builder.addRules_stepwise {motive : List Rule → Builder → Prop}
    (adds : ∀ {added builder rule after}, motive added builder → builder.Adds rule after →
      motive (added ++ [rule]) after)
    {added rules : List Rule} {builder after : Builder} (hadded : motive added builder)
    (hadd : builder.addRules rules = (.ok (), after)) : motive (added ++ rules) after := by
  induction rules generalizing added builder with
  | nil =>
    cases hadd
    rwa [List.append_nil]
  | cons rule rest ih =>
    obtain ⟨middle, hrule, hrest⟩ := addRules_cons.mp hadd
    have hall := ih (adds hadded (adds_of_addRule hrule)) hrest
    rwa [List.append_assoc] at hall

/-- Induction along the rules of a grammar that is built. -/
theorem Grammar.build_stepwise {motive : List Rule → Builder → Prop} (fresh : motive [] .fresh)
    (adds : ∀ {added builder rule after}, motive added builder → builder.Adds rule after →
      motive (added ++ [rule]) after)
    {grammar : Grammar} {registry : Registry} (hbuild : grammar.build = .ok registry) :
    ∃ builder : Builder, builder.registry = registry ∧ motive grammar.rules builder := by
  obtain ⟨builder, hadd, hregistry⟩ := build_eq_ok.mp hbuild
  exact ⟨builder, hregistry, Builder.addRules_stepwise adds fresh hadd⟩

end PegTemplates
