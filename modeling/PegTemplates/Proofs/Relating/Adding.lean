import PegTemplates.Proofs.Building.Closed
import PegTemplates.Proofs.Relating.Embedding

/-!
# Rules added under other numbers

A rule that is added behind other rules starts with other numbers, and yields the same under
the numbers that it gets there. What a builder has registered holds no numbers but those that
it has handed out. So new numbers that keep these keep the whole registry, and a rule under a
new name is registered behind it without touching anything in it.
-/

namespace PegTemplates

section Run

variable (rule : Rule) {numbers : Renumbering} {nextShape nextSite otherShape otherSite : Nat}
  (hcapture : ∀ id, nextShape ≤ id → id < (rule.run nextShape nextSite).nextShape →
    numbers.capture id + nextShape = id + otherShape)
  (hsite : ∀ site, nextSite ≤ site → site < (rule.run nextShape nextSite).nextSite →
    numbers.site site + nextSite = site + otherSite)

include hcapture hsite

/-- A rule that starts with other next numbers comes to the same, under the numbers that it hands
out then. -/
theorem Rule.run_renumbered :
    Assembly.Renumbered numbers ⟨nextShape, [], nextSite, [.opened .root], [], []⟩
      ⟨otherShape, [], otherSite, [.opened .root], [], []⟩ (rule.run nextShape nextSite)
      (rule.run otherShape otherSite) := by
  refine Assembly.Renumbered.run ?_ rule.expr.steps ⟨hcapture, hsite⟩
  exact ⟨Nat.add_comm _ _, Nat.add_comm _ _, ⟨Nat.le_refl _, Nat.le_refl _⟩, rfl, rfl, rfl, rfl⟩

/-- A rule that starts with other next numbers yields the same. -/
theorem Rule.yield_renumber :
    rule.yield otherShape otherSite = (rule.yield nextShape nextSite).renumber numbers := by
  have hrun := rule.run_renumbered hcapture hsite
  rw [yield, yield, Yield.renumber, hrun.scopes, hrun.shapes, List.flatMap_map, renumberSequence,
    List.map_flatMap]
  rfl

end Run

/-- A sequence is made up by the same shape under its new number. -/
theorem Registry.soleCapture_renumber (numbers : Renumbering) (elements : List Element) :
    soleCapture (renumberSequence numbers elements) =
      (soleCapture elements).map numbers.capture := by
  rcases elements with _ | ⟨first, _ | ⟨next, rest⟩⟩
  · rfl
  · cases first <;> rfl
  · cases first <;> rfl

/-- The same shape of a yield is named. -/
theorem Yield.named_renumber {numbers : Renumbering}
    (hinjective : Function.Injective numbers.capture) (name : String) (yield : Yield) :
    (yield.renumber numbers).named name = (yield.named name).renumber numbers := by
  have hshapes : nameSole name (renumberSequence numbers yield.elements)
      (yield.shapes.map (·.renumber numbers)) =
        (nameSole name yield.elements yield.shapes).map (·.renumber numbers) := by
    rw [nameSole, nameSole, List.map_map, List.map_map]
    refine List.map_congr_left fun shape _ => ?_
    have hsole : Registry.soleCapture (renumberSequence numbers yield.elements) =
        some (numbers.capture shape.id) ↔ Registry.soleCapture yield.elements = some shape.id := by
      rw [Registry.soleCapture_renumber, ← Option.map_some,
        (Option.map_injective hinjective).eq_iff]
    simp only [Function.comp_apply, Shape.renumber, hsole]
    split <;> rfl
  exact congrArg (Yield.mk _) hshapes

/-- What is put among bodies of other names comes behind them. -/
theorem Registry.putBody_of_new {body : RuleBody} {rules : List RuleBody}
    (hnew : body.name ∉ rules.map (·.name)) : putBody body rules = rules ++ [body] := by
  induction rules with
  | nil => rfl
  | cons first rest ih =>
    rw [List.map_cons, List.mem_cons, not_or] at hnew
    rw [putBody, if_neg (Ne.symm hnew.1), ih hnew.2]
    rfl

/-- Whether everything that a builder has registered stays under any new numbers that keep
those handed out. -/
def Builder.Settled (builder : Builder) : Prop :=
  ∀ numbers : Renumbering, Function.Injective numbers.capture →
    (∀ id, id < builder.registry.size → numbers.capture id = id) →
    (∀ site, site < builder.nextSite → numbers.site site = site) →
      (∀ shape ∈ builder.registry.shapes, shape.renumber numbers = shape) ∧
        ∀ body ∈ builder.registry.rules, body.renumber numbers = body

namespace Builder.Adds

variable {builder after : Builder} {rule : Rule} (hadds : builder.Adds rule after)

include hadds

/-- No site is taken back. -/
theorem nextSite_le : builder.nextSite ≤ after.nextSite := by
  rw [hadds.nextSite]
  exact (Assembly.numbers_le_run rule.expr.steps
    ⟨builder.registry.size, [], builder.nextSite, [.opened .root], [], []⟩).2

/-- A rule yields the same for another builder, under the numbers that it hands out there. -/
theorem yield_renumber {numbers : Renumbering}
    (hinjective : Function.Injective numbers.capture) {other : Builder}
    (hcapture : ∀ id, builder.registry.size ≤ id → id < after.registry.size →
      numbers.capture id + builder.registry.size = id + other.registry.size)
    (hsite : ∀ site, builder.nextSite ≤ site → site < after.nextSite →
      numbers.site site + builder.nextSite = site + other.nextSite) :
    (rule.yield other.registry.size other.nextSite).named rule.name =
      ((rule.yield builder.registry.size builder.nextSite).named rule.name).renumber numbers := by
  rw [← Yield.named_renumber hinjective]
  congr 1
  apply rule.yield_renumber
  · intro id hfrom hlast
    exact hcapture id hfrom (hadds.size ▸ hlast)
  · intro site hfrom hlast
    exact hsite site hfrom (hadds.nextSite ▸ hlast)

/-- What a rule yields stays under new numbers that keep those handed out for it. -/
theorem yield_kept {numbers : Renumbering} (hinjective : Function.Injective numbers.capture)
    (hcapture : ∀ id, builder.registry.size ≤ id → id < after.registry.size →
      numbers.capture id = id)
    (hsite : ∀ site, builder.nextSite ≤ site → site < after.nextSite →
      numbers.site site = site) :
    ((rule.yield builder.registry.size builder.nextSite).named rule.name).renumber numbers =
      (rule.yield builder.registry.size builder.nextSite).named rule.name := by
  have hyield : (rule.yield builder.registry.size builder.nextSite).named rule.name =
      ((rule.yield builder.registry.size builder.nextSite).named rule.name).renumber numbers := by
    apply hadds.yield_renumber hinjective
    · intro id hfrom hlast
      rw [hcapture id hfrom hlast]
    · intro site hfrom hlast
      rw [hsite site hfrom hlast]
  exact hyield.symm

/-- The shapes of a rule come behind those from before. -/
theorem shapes : after.registry.shapes = builder.registry.shapes ++
    ((rule.yield builder.registry.size builder.nextSite).named rule.name).shapes := by
  rw [hadds.registry]
  rfl

/-- Under a new name the body of a rule comes behind those from before. -/
theorem rules (hnew : rule.name ∉ builder.registry.rules.map (·.name)) :
    after.registry.rules = builder.registry.rules ++
      [⟨rule.name, (rule.yield builder.registry.size builder.nextSite).elements⟩] := by
  rw [hadds.registry]
  exact Registry.putBody_of_new hnew

/-- Adding a rule leaves a builder settled. -/
theorem settled (hsettled : builder.Settled) : after.Settled := by
  intro numbers hinjective hcapture hsite
  obtain ⟨hshapes, hbodies⟩ := hsettled numbers hinjective
    (fun id hid => hcapture id (Nat.lt_of_lt_of_le hid hadds.size_le))
    (fun site hlt => hsite site (Nat.lt_of_lt_of_le hlt hadds.nextSite_le))
  have hkept := hadds.yield_kept hinjective (fun id _ => hcapture id) (fun site _ => hsite site)
  constructor
  · intro shape hshape
    rw [hadds.shapes] at hshape
    rcases List.mem_append.mp hshape with hold | hnew
    · exact hshapes shape hold
    · have hmap := (congrArg Yield.shapes hkept).trans (List.map_id _).symm
      exact List.map_inj_left.mp hmap shape hnew
  · intro body hbody
    rw [hadds.registry] at hbody
    rcases Registry.mem_putBody hbody with rfl | hold
    · exact congrArg (RuleBody.mk rule.name) (congrArg Yield.elements hkept)
    · exact hbodies body hold

end Builder.Adds

/-- Rules that are added leave a builder settled. -/
theorem Builder.settled_addRules {rules : List Rule} {builder after : Builder}
    (hsettled : builder.Settled) (hadd : builder.addRules rules = (.ok (), after)) :
    after.Settled :=
  @addRules_stepwise (fun _ builder => builder.Settled)
    (fun hsettled hadds => hadds.settled hsettled) [] rules builder after hsettled hadd

/-- A builder that has seen no rule is settled. -/
theorem Builder.settled_fresh : Builder.fresh.Settled :=
  fun _ _ _ _ => ⟨List.forall_mem_nil _, List.forall_mem_nil _⟩

end PegTemplates
