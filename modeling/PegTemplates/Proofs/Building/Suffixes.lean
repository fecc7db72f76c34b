import PegTemplates.Proofs.Building.Enclosing
import PegTemplates.Proofs.Building.Raising

/-!
# Building one expression behind another

What is built does not depend on the name that the rule has, and of the rules before it only on
the numbers they have handed out. So an expression that folds nothing comes to the same behind
any other one: its elements are put behind those of the other one and its shapes behind those
registered for that, all under raised numbers.
-/

namespace PegTemplates

namespace Builder

variable {builder begun alone after : Builder}

/-- The shapes registered since are those behind the shapes from before. -/
theorem shapesUntil_eq_of_registry {shapes : List Shape}
    (hregistry : after.registry = ⟨builder.registry.shapes ++ shapes, builder.registry.rules⟩) :
    builder.shapesUntil after = shapes := by
  rw [shapesUntil, hregistry]
  exact List.drop_left

/-- Only the registry of the later builder counts. -/
theorem shapesUntil_congr (hregistry : begun.registry = after.registry) :
    builder.shapesUntil begun = builder.shapesUntil after := by
  rw [shapesUntil, shapesUntil, hregistry]

/-- A rule is built alike under any name. -/
theorem buildRule_renamed {name : String} {expr : Expr} {elements : List Element}
    (hbuild : builder.buildRule ⟨name, expr⟩ = (.ok elements, after)) (other : String) :
    ∃ last, builder.buildRule ⟨other, expr⟩ = (.ok elements, last) ∧
      last.registry = after.registry ∧ last.nextSite = after.nextSite := by
  have hbalanced : Balanced expr.word :=
    (buildRule_ok_iff builder ⟨name, expr⟩).mp ⟨elements, congrArg Prod.fst hbuild⟩
  obtain ⟨others, hothers⟩ := (buildRule_ok_iff builder ⟨other, expr⟩).mpr hbalanced
  have hrenamed : builder.buildRule ⟨other, expr⟩ = (.ok others, _) := Prod.ext hothers rfl
  have hfirst := builds_of_buildRule hbuild
  have hsecond := builds_of_buildRule hrenamed
  -- the run of a rule is one of its expression alone
  obtain ⟨root, hscopes, rfl⟩ := hfirst.scopes
  obtain ⟨own, hown, rfl⟩ := hsecond.scopes
  obtain rfl : own = root := (List.cons.inj (hown.symm.trans hscopes)).1
  exact ⟨_, hrenamed, hsecond.registry.trans hfirst.registry.symm,
    hsecond.nextSite.trans hfirst.nextSite.symm⟩

/-- A rule that is built behind some rules is also built behind others, with all numbers raised
by those that these have handed out besides. -/
theorem buildRule_moved {rule : Rule} {elements : List Element} {later : Builder}
    {raise : Renumbering} (hraise : builder.raise.andThen raise = later.raise)
    (hbuild : builder.buildRule rule = (.ok elements, after)) :
    ∃ last, later.buildRule rule = (.ok (renumberSequence raise elements), last) ∧
      last.registry = ⟨later.registry.shapes ++
        (builder.shapesUntil after).map (·.renumber raise), later.registry.rules⟩ ∧
      last.nextSite + builder.nextSite = later.nextSite + after.nextSite := by
  obtain ⟨hown, hregistry, hsite⟩ := buildRule_behind builder rule
  obtain ⟨hlater, hshapes, hnext⟩ := buildRule_behind later rule
  rw [hbuild] at hown hregistry hsite
  cases hfresh : (Builder.fresh.buildRule rule).1 with
  | error reason =>
    rw [hfresh] at hown
    cases hown
  | ok own =>
    rw [hfresh] at hown hlater
    obtain rfl : elements = renumberSequence builder.raise own := Except.ok.inj hown
    refine ⟨(later.buildRule rule).2, Prod.ext (hlater.trans ?_) rfl, ?_, ?_⟩
    · rw [renumberSequence_andThen, hraise]
      rfl
    · rw [hshapes, shapesUntil_eq_of_registry hregistry, List.map_map, ← hraise]
      simp only [Function.comp_def, Shape.renumber_andThen]
    · rw [hnext]
      dsimp only at hsite
      omega

/-- Two expressions of which the second folds nothing are built one behind the other, if the
second is built behind the first. -/
theorem buildRule_pair {name : String} {first next : Expr} {before behind : List Element}
    (hfirst : builder.buildRule ⟨name, first⟩ = (.ok before, begun))
    (hnext : begun.buildRule ⟨name, next⟩ = (.ok behind, after)) (hnone : next.hasFold = false) :
    ∃ last, builder.buildRule ⟨name, .sequence [first, next]⟩ = (.ok (before ++ behind), last) ∧
      last.registry = after.registry ∧ last.nextSite = after.nextSite := by
  obtain ⟨walk, hwalk, hsingle, rfl, rfl⟩ := buildRule_eq_ok.mp hfirst
  have hfits : Place.rule.Fits .root := rfl
  have hread := visit_readsWord name hfits first
    (Walk.Above.zero_iff.mpr (Walk.kinds_start builder))
  rw [hwalk] at hread
  obtain ⟨depth, habove, _⟩ := hread.above
  obtain rfl := depth_of_enclosing habove hsingle
  have hkind : walk.current.kind = .root := (List.cons.inj (Walk.Above.zero_iff.mp habove)).1
  have hkinds : walk.current.kind ≠ .repeated := by
    rw [hkind]
    exact ScopeKind.noConfusion
  obtain ⟨last, hlast, hscopes, hregistry, hsite⟩ :=
    visit_of_buildRule name hnone hnext walk hkinds rfl rfl
  obtain ⟨hcurrent, henclosing⟩ := List.cons.inj hscopes
  have hwhole : (visitItems name [first, next]).run (.start builder) = .ok () last :=
    visitItems_cons_eq_ok.mpr ⟨walk, hwalk, visitItems_cons_eq_ok.mpr ⟨last, hlast, rfl⟩⟩
  refine ⟨_, buildRule_eq_ok.mpr ⟨last, hwhole, henclosing.trans hsingle, ?_, rfl⟩, hregistry,
    hsite⟩
  rw [hcurrent]
  rfl

/-- The numbers handed out by a builder that has built a rule are those from before and those of
the rule. -/
theorem raise_of_buildRule {rule : Rule} {elements : List Element} {later : Builder}
    (hbuild : builder.buildRule rule = (.ok elements, after))
    (hregistry : later.registry = after.registry) (hsite : later.nextSite = after.nextSite) :
    builder.raise.andThen ⟨fun id => (builder.shapesUntil after).length + id,
      fun site => rule.expr.references.length + site⟩ = later.raise := by
  have hbuilds := builds_of_buildRule hbuild
  have hsize : after.registry.size =
      builder.registry.size + (builder.shapesUntil after).length := by
    rw [hbuilds.shapesUntil, hbuilds.registry]
    exact List.length_append
  have hnext : after.nextSite = builder.nextSite + rule.expr.references.length :=
    hbuilds.conserved.nextSite
  have hraised : ∀ first next number : Nat, next + (first + number) = first + next + number := by
    omega
  unfold raise Renumbering.andThen
  rw [hregistry, hsite, hsize, hnext]
  exact congrArg₂ Renumbering.mk (funext (hraised _ _)) (funext (hraised _ _))

/-- Building turns a sequence of two expressions, of which the second folds nothing, into what
each comes to on its own, one behind the other. The captures in what comes from the second are
raised by the number of shapes of the first, and the sites by the number of its references. -/
theorem buildRule_sequence {name other : String} {first next : Expr}
    {before behind : List Element}
    (hfirst : builder.buildRule ⟨name, first⟩ = (.ok before, begun))
    (hnext : builder.buildRule ⟨other, next⟩ = (.ok behind, alone))
    (hnone : next.hasFold = false) (whole : String) :
    let shapes := builder.shapesUntil begun
    let raise : Renumbering :=
      ⟨fun id => shapes.length + id, fun site => first.references.length + site⟩
    ∃ after, builder.buildRule ⟨whole, .sequence [first, next]⟩ =
        (.ok (before ++ renumberSequence raise behind), after) ∧
      builder.shapesUntil after = shapes ++ (builder.shapesUntil alone).map (·.renumber raise) ∧
      after.registry.rules = builder.registry.rules ∧
      after.nextSite = builder.nextSite + first.references.length + next.references.length := by
  intro shapes raise
  obtain ⟨started, hstarted, hregistry, hsite⟩ := buildRule_renamed hfirst whole
  obtain ⟨ended, hended, hshapes, hsites⟩ := buildRule_renamed hnext whole
  obtain ⟨moved, hmoved, hadded, _⟩ :=
    buildRule_moved (raise_of_buildRule hfirst hregistry hsite) hended
  obtain ⟨after, hwhole, hafter, _⟩ := buildRule_pair hstarted hmoved hnone
  have hstart := (builds_of_buildRule hstarted).registry
  rw [← (builds_of_buildRule hstarted).shapesUntil, shapesUntil_congr hregistry] at hstart
  have hregistered : after.registry = ⟨builder.registry.shapes ++ (shapes ++
      (builder.shapesUntil alone).map (·.renumber raise)), builder.registry.rules⟩ := by
    rw [hafter, hadded, hstart, shapesUntil_congr hshapes, List.append_assoc]
  refine ⟨after, hwhole, shapesUntil_eq_of_registry hregistered, by rw [hregistered], ?_⟩
  rw [(builds_of_buildRule hwhole).conserved.nextSite, Nat.add_assoc, ← List.length_append]
  simp [Expr.references, Expr.referencesOfAll]

/-- A sum in brackets behind a sum that folds in a repetition: the capture in the brackets gets
the number behind that of the folded node, and the sites go on behind those of the sum. -/
theorem buildRule_sequence_behind_fold :
    let first : Expr := .sequence [.nonTerminal "product", .zeroOrMore
      (.leftFold (some "left") [.tag "Sum", .link (some "right") (.nonTerminal "product")])]
    let next : Expr := .optional (.link (some "more")
      (.capture [.tag "Brackets", .nonTerminal "sum", .nonTerminal "product"]))
    let tail (id : ShapeId) : List Element := [.optional [.linked (some "more") [.captured id]]]
    let brackets (id : ShapeId) (site : Nat) : Shape :=
      ⟨id, none, [.tag "Brackets", .nonTerminal "sum" ⟨site⟩, .nonTerminal "product" ⟨site + 1⟩]⟩
    let head : Element := .choice [[.captured 0], [.nonTerminal "product" ⟨0⟩]]
    (∃ begun, Builder.fresh.buildRule ⟨"sum", first⟩ = (.ok [head], begun)) ∧
    (∃ alone, Builder.fresh.buildRule ⟨"brackets", next⟩ = (.ok (tail 0), alone) ∧
      alone.registry.shapes = [brackets 0 0]) ∧
    next.hasFold = false ∧
    ∃ after, Builder.fresh.buildRule ⟨"both", .sequence [first, next]⟩ =
        (.ok (head :: tail 1), after) ∧
      after.registry.shapes = [⟨0, none, [.linked (some "left") [head], .tag "Sum",
        .linked (some "right") [.nonTerminal "product" ⟨1⟩]]⟩, brackets 1 2] ∧
      after.nextSite = 4 := by
  intro first next tail brackets head
  have hfirst : Builder.fresh.buildRule ⟨"sum", first⟩ = (.ok [head], _) := rfl
  have hnext : Builder.fresh.buildRule ⟨"brackets", next⟩ = (.ok (tail 0), _) := rfl
  obtain ⟨after, hwhole, hshapes, _, hsite⟩ := buildRule_sequence hfirst hnext rfl "both"
  exact ⟨⟨_, hfirst⟩, ⟨_, hnext, rfl⟩, rfl, after, hwhole, hshapes, hsite⟩

end Builder

end PegTemplates
