import PegTemplates.Proofs.Building.Choosing
import PegTemplates.Proofs.Building.Registration

/-!
# What a rule contributes to a registry

Of a builder, building a rule reads only the next two numbers. So what the rule
contributes is the outcome of one run that starts from these numbers, and the registry
of a grammar consists of the contributions of its rules, one behind the other.
-/

namespace PegTemplates

/-- Run of a whole rule that starts with these next numbers. -/
def Rule.run (rule : Rule) (nextShape nextSite : Nat) : Assembly :=
  Assembly.run rule.expr.steps ⟨nextShape, [], nextSite, [.opened .root], [], []⟩

/-- The run of a rule starts in a scope that no delimiter closes. -/
theorem Assembly.grounded_root (nextShape nextSite : Nat) :
    Grounded ⟨nextShape, [], nextSite, [.opened .root], [], []⟩ :=
  ⟨.root, rfl, rfl⟩

/-- Whether building a rule comes to what its run comes to. -/
structure Builder.Builds (builder : Builder) (rule : Rule) (elements : List Element)
    (after : Builder) : Prop where
  /-- The scope of the rule is the only one left, and holds its body. -/
  scopes : ∃ root, (rule.run builder.registry.size builder.nextSite).scopes = [root] ∧
    root.elements = elements
  /-- Nothing has been taken from around the rule. -/
  reserve : (rule.run builder.registry.size builder.nextSite).reserve = []
  /-- No branch is left without its choice. -/
  aside : (rule.run builder.registry.size builder.nextSite).aside = []
  /-- The shapes of the run are registered behind those from before. -/
  registry : after.registry = ⟨builder.registry.shapes ++
    (rule.run builder.registry.size builder.nextSite).shapes, builder.registry.rules⟩
  /-- The run has handed out the numbers of the shapes. -/
  size : after.registry.size = (rule.run builder.registry.size builder.nextSite).nextShape
  /-- The run has handed out the sites. -/
  nextSite : after.nextSite = (rule.run builder.registry.size builder.nextSite).nextSite

namespace Builder

variable {builder after : Builder} {rule : Rule} {elements : List Element}

/-- A rule that is built comes to what its run comes to. -/
theorem builds_of_buildRule (hbuild : builder.buildRule rule = (.ok elements, after)) :
    builder.Builds rule elements after := by
  obtain ⟨walk, hrun, hsingle, helements, hafter⟩ := buildRule_eq_ok.mp hbuild
  have hmirrors := visit_mirrors rule.name rule.expr (Walk.mirrors_whole (.start builder))
    (Walk.grounded_whole rfl) hrun
  obtain ⟨around, hscopes, hdepth, hreserve⟩ := hmirrors.scopes
  obtain rfl := List.length_eq_zero_iff.mp hdepth
  rw [List.append_nil, Walk.scopes, hsingle] at hscopes
  have hkeeps : ∀ (registry : Registry) (elements : List Element),
      registry.rules = builder.registry.rules →
        (registry.register elements none).rules = builder.registry.rules :=
    fun _ _ hsame => hsame
  have hrules : walk.registry.rules = builder.registry.rules :=
    visit_keeps rule.name hkeeps rule.expr rfl hrun
  subst hafter
  refine ⟨⟨walk.current, hscopes.symm, helements⟩, hreserve.symm, hmirrors.aside, ?_,
    hmirrors.nextShape, hmirrors.nextSite⟩
  rw [← hrules]
  exact congrArg (Registry.mk · walk.registry.rules) hmirrors.shapes

/-- A rule that is added registers its body behind what building it comes to. -/
theorem builds_of_addRule (hadd : builder.addRule rule = (.ok (), after)) :
    ∃ elements built, builder.buildRule rule = (.ok elements, built) ∧
      builder.Builds rule elements built ∧
      after.registry = built.registry.registerRule rule.name elements ∧
      after.nextSite = built.nextSite := by
  unfold addRule at hadd
  split at hadd
  · rename_i elements built hbuild
    cases hadd
    refine ⟨elements, built, hbuild, builds_of_buildRule hbuild, rfl, ?_⟩
    unfold enterRule
    dsimp only
    split <;> rfl
  · cases hadd

/-- Rules are added one by one. -/
theorem addRules_cons {later : List Rule} {last : Builder} :
    builder.addRules (rule :: later) = (.ok (), last) ↔
      ∃ middle, builder.addRule rule = (.ok (), middle) ∧
        middle.addRules later = (.ok (), last) := by
  rw [addRules]
  rcases builder.addRule rule with ⟨reason | ⟨⟩, middle⟩ <;> simp

/-- Rules are added one part behind the other. -/
theorem addRules_append {earlier later : List Rule} {last : Builder} :
    builder.addRules (earlier ++ later) = (.ok (), last) ↔
      ∃ middle, builder.addRules earlier = (.ok (), middle) ∧
        middle.addRules later = (.ok (), last) := by
  induction earlier generalizing builder with
  | nil => simp [addRules]
  | cons rule rest ih =>
    rw [List.cons_append, addRules_cons]
    constructor
    · rintro ⟨middle, hrule, hrest⟩
      obtain ⟨between, hearlier, hlater⟩ := ih.mp hrest
      exact ⟨between, addRules_cons.mpr ⟨middle, hrule, hearlier⟩, hlater⟩
    · rintro ⟨between, hearlier, hlater⟩
      obtain ⟨middle, hrule, hrest⟩ := addRules_cons.mp hearlier
      exact ⟨middle, hrule, ih.mpr ⟨between, hrest, hlater⟩⟩

namespace Builds

variable (hbuilds : builder.Builds rule elements after)

include hbuilds

/-- The shapes registered since are those of the run. -/
theorem shapesUntil :
    builder.shapesUntil after = (rule.run builder.registry.size builder.nextSite).shapes := by
  rw [Builder.shapesUntil, hbuilds.registry]
  exact List.drop_left

end Builds

end Builder

/-- A grammar is built exactly if all of its rules can be added. -/
theorem Grammar.build_eq_ok {grammar : Grammar} {registry : Registry} :
    grammar.build = .ok registry ↔ ∃ builder : Builder,
      Builder.fresh.addRules grammar.rules = (.ok (), builder) ∧ builder.registry = registry := by
  unfold build
  rcases Builder.fresh.addRules grammar.rules with ⟨reason | ⟨⟩, builder⟩ <;> simp

end PegTemplates
