import PegTemplates.Proofs.Relating.Adding
import PegTemplates.Proofs.Relating.Blocks

/-!
# A rule behind a grammar

A rule that is added behind a grammar registers its shapes behind those of the grammar. If its
name is new and nothing refers to it, everything that is asked of the earlier shapes comes to
the same as before: the rule is never entered, its shapes are captured nowhere, and neither
names nor tags change. So what is written for the grammar comes first, unchanged, and so do the
shapes that are left out and the tags that are cut off.
-/

namespace PegTemplates

/-- Makes room for new numbers: from `start` on, numbers move on by `count`. -/
def makeRoom (start count number : Nat) : Nat := if number < start then number else number + count

/-- No two numbers get the same place when room is made. -/
theorem makeRoom_injective (start count : Nat) : Function.Injective (makeRoom start count) := by
  intro number other hsame
  unfold makeRoom at hsame
  split_ifs at hsame <;> omega

/-- Numbers before the room stay. -/
theorem makeRoom_of_lt {start number : Nat} (hnumber : number < start) (count : Nat) :
    makeRoom start count number = number :=
  if_pos hnumber

/-- The shapes of one builder keep their numbers, and there is room for those of a later one. -/
def Renumbering.between (builder after : Builder) : Renumbering where
  capture := makeRoom builder.registry.size (after.registry.size - builder.registry.size)
  site := fun site => site

/-- Whether a reference is to another rule than the one of this name. -/
def Reference.Avoids (name : String) (reference : Reference) : Prop := reference.name ≠ name

/-- Behind a rule that nothing refers to, and that has a new name, a registry holds all that it
held before. -/
theorem Builder.Adds.holds {builder after : Builder} {rule : Rule} (hadds : builder.Adds rule after)
    (hsettled : builder.Settled) (hnew : rule.name ∉ builder.registry.rules.map (·.name))
    (hshapes : ∀ shape ∈ builder.registry.shapes,
      RefersTo (Reference.Avoids rule.name) shape.elements)
    (hbodies : ∀ body ∈ builder.registry.rules,
      RefersTo (Reference.Avoids rule.name) body.elements) :
    builder.registry.Holds (.between builder after) (Reference.Avoids rule.name)
      after.registry := by
  obtain ⟨hkeptShapes, hkeptBodies⟩ := hsettled (.between builder after)
    (makeRoom_injective _ _) (fun _ hid => makeRoom_of_lt hid _) fun _ _ => rfl
  refine ⟨⟨makeRoom_injective _ _, fun _ _ hsame => hsame, ?_, hbodies, ?_⟩, ?_, hshapes⟩
  · intro reference havoids
    rw [hadds.body?, if_neg (Ne.symm havoids)]
    cases hbody : builder.registry.body? reference.name with
    | none => rfl
    | some body =>
      exact congrArg some (hkeptBodies body (Registry.mem_rules_of_body? hbody).1).symm
  · rw [List.map_congr_left hkeptBodies, List.map_id', hadds.rules hnew]
    exact (List.sublist_append_left _ _).subperm
  · intro id
    change after.registry.shape? (makeRoom _ _ id) = _
    rcases Nat.lt_or_ge id builder.registry.size with hlt | hge
    · rw [makeRoom_of_lt hlt, Registry.shape?, Registry.shape?, hadds.shapes,
        List.getElem?_append_left hlt, List.getElem?_eq_getElem hlt]
      exact congrArg some (hkeptShapes _ (List.getElem_mem hlt)).symm
    · -- behind the last shape there is none, and room is made for all the new ones
      have hbehind : after.registry.size ≤ makeRoom builder.registry.size
          (after.registry.size - builder.registry.size) id := by
        rw [makeRoom, if_neg (Nat.not_lt.mpr hge), ← Nat.add_sub_of_le hadds.size_le]
        exact Nat.add_le_add hge (Nat.le_of_eq (by rw [Nat.add_sub_cancel_left]))
      have hnone : builder.registry.shape? id = none := List.getElem?_eq_none hge
      have hnoneAfter : after.registry.shape? (makeRoom builder.registry.size
          (after.registry.size - builder.registry.size) id) = none := List.getElem?_eq_none hbehind
      rw [hnone, hnoneAfter]
      rfl

/-- Whether another emission begins with what is written and reported in this one. -/
structure Emission.Begins (before after : Emission) : Prop where
  /-- The text comes first. -/
  text : ∃ more, after.text = before.text ++ more
  /-- The shapes that are left out come first. -/
  skipped : before.report.skipped <+: after.report.skipped
  /-- The tags that are cut off come first. -/
  truncated : before.report.truncated <+: after.report.truncated

/-- The emission of a registry begins with that of another one which it holds, if the shapes of
that one come first and keep their numbers. -/
theorem Registry.Holds.begins {numbers : Renumbering} {known : Reference → Prop}
    {registry other : Registry} (hholds : registry.Holds numbers known other)
    (hkept : ∀ shape ∈ registry.shapes, shape.renumber numbers = shape)
    (hshapes : registry.shapes <+: other.shapes) (limit : Nat) :
    (registry.emission limit).Begins (other.emission limit) := by
  obtain ⟨later, hshapes⟩ := hshapes
  have hblocks : (registry.emission limit).blocks <+: (other.emission limit).blocks := by
    rw [emission_blocks, emission_blocks, ← hshapes, List.flatMap_append]
    refine ⟨_, congrArg (· ++ _) (List.flatMap_congr fun shape hshape => ?_)⟩
    have hsame := hholds.blocks_renumber hshape limit
    rw [hkept shape hshape] at hsame
    exact hsame.symm
  refine ⟨?_, ?_, ?_⟩
  · obtain ⟨more, hmore⟩ := hblocks
    refine ⟨String.join (more.flatMap (·.writes)), ?_⟩
    rw [Emission.text, Emission.text, Emission.writes, Emission.writes, ← hmore,
      List.flatMap_append, String.join_append]
  · rw [report_skipped, report_skipped, ← hshapes, List.filterMap_append]
    refine ⟨_, congrArg (· ++ _) (List.filterMap_congr fun shape hshape => ?_)⟩
    have hsame := hholds.failure_renumber hshape
    rw [hkept shape hshape] at hsame
    rw [hsame]
  · rw [report_truncated, report_truncated, ← hshapes, List.flatMap_append]
    refine ⟨_, congrArg (· ++ _) (List.flatMap_congr fun shape hshape => ?_)⟩
    have hsame := hholds.truncated_renumber hshape limit
    rw [hkept shape hshape] at hsame
    rw [hsame]

/-- A rule behind a grammar only appends to what is written and reported for the grammar, if its
name is new and no reference that is visited in the grammar names it. -/
theorem Grammar.generate_append {grammar : Grammar} {rule : Rule} {registry longer : Registry}
    (hbuild : grammar.build = .ok registry)
    (hlonger : (Grammar.mk (grammar.rules ++ [rule])).build = .ok longer)
    (hname : rule.name ∉ grammar.rules.map (·.name)) (hreferences : rule.name ∉ grammar.references)
    (limit : Nat) :
    ∃ before after, grammar.generate limit = .ok before ∧
      (Grammar.mk (grammar.rules ++ [rule])).generate limit = .ok after ∧
      before.Begins after := by
  have hnamed := build_named hbuild
  obtain ⟨last, hlast, rfl⟩ := build_eq_ok.mp hlonger
  obtain ⟨builder, hrules, hadd⟩ := Builder.addRules_append.mp hlast
  obtain ⟨_, hsame, rfl⟩ := build_eq_ok.mp hbuild
  obtain rfl : builder = _ := congrArg Prod.snd (hrules.symm.trans hsame)
  have hadds : builder.Adds rule last := by
    obtain ⟨middle, hrule, hnothing⟩ := Builder.addRules_cons.mp hadd
    cases hnothing
    exact Builder.adds_of_addRule hrule
  have hsettled := Builder.settled_addRules Builder.settled_fresh hrules
  have hnew : rule.name ∉ builder.registry.rules.map (·.name) := by
    intro hdefined
    obtain ⟨body, hbody, hsame⟩ := List.mem_map.mp hdefined
    have hnone := (body?_eq_none_iff hbuild rule.name).mpr fun other hother hequal =>
      hname (List.mem_map.mpr ⟨other, hother, hequal⟩)
    exact List.find?_eq_none.mp hnone body hbody (beq_iff_eq.mpr hsame)
  have havoids : ∀ {elements : List Element}, NamedBy grammar.references elements →
      RefersTo (Reference.Avoids rule.name) elements := by
    intro elements hnamed reference hmentioned hequal
    exact hreferences (hequal ▸ List.mem_of_getElem? (hnamed reference hmentioned))
  have hholds := hadds.holds hsettled hnew
    (fun shape hshape => havoids (hnamed.shapes shape hshape))
    fun body hbody => havoids (hnamed.rules body hbody)
  refine ⟨_, _, by rw [generate, hbuild]; rfl, by rw [generate, hlonger]; rfl,
    hholds.begins ?_ ?_ limit⟩
  · exact (hsettled _ hholds.capture_injective
      (fun _ hid => makeRoom_of_lt hid _) fun _ _ => rfl).1
  · rw [hadds.shapes]
    exact List.prefix_append _ _

/-- A rule that refers to the grammar and to itself, behind a grammar of which one shape is left
out and another one is cut off. -/
theorem Grammar.generate_append_list :
    let grammar : Grammar := ⟨[
      ⟨"S", .capture [.tag "S", .link none (.choice [.nonTerminal "N", .nonTerminal "U"])]⟩,
      ⟨"N", .capture [.byte 49]⟩, ⟨"U", .capture [.nonTerminal "X"]⟩]⟩
    let rule : Rule := ⟨"L", .sequence [.nonTerminal "S", .capture [.tag "List",
      .link (some "item") (.nonTerminal "S"), .nonTerminal "L"]]⟩
    let shapes : List Shape := [⟨0, some "S", [.tag "S", .linked none
      [.choice [[.nonTerminal "N" ⟨0⟩], [.nonTerminal "U" ⟨1⟩]]]]⟩,
      ⟨1, some "N", [.byte 49]⟩, ⟨2, some "U", [.nonTerminal "X" ⟨2⟩]⟩]
    let bodies : List RuleBody :=
      [⟨"S", [.captured 0]⟩, ⟨"N", [.captured 1]⟩, ⟨"U", [.captured 2]⟩]
    grammar.build = .ok ⟨shapes, bodies⟩ ∧
      (Grammar.mk (grammar.rules ++ [rule])).build = .ok ⟨shapes ++ [⟨3, none, [.tag "List",
        .linked (some "item") [.nonTerminal "S" ⟨4⟩], .nonTerminal "L" ⟨5⟩]⟩],
        bodies ++ [⟨"L", [.nonTerminal "S" ⟨3⟩, .captured 3]⟩]⟩ ∧
      rule.name ∉ grammar.rules.map (·.name) ∧ rule.name ∉ grammar.references ∧
      ∃ before after, grammar.generate 1 = .ok before ∧
        (Grammar.mk (grammar.rules ++ [rule])).generate 1 = .ok after ∧ before.Begins after := by
  intro grammar rule shapes bodies
  have hbuild : grammar.build = .ok ⟨shapes, bodies⟩ := by rfl
  have hlonger : (Grammar.mk (grammar.rules ++ [rule])).build = .ok ⟨shapes ++ [⟨3, none,
      [.tag "List", .linked (some "item") [.nonTerminal "S" ⟨4⟩], .nonTerminal "L" ⟨5⟩]⟩],
      bodies ++ [⟨"L", [.nonTerminal "S" ⟨3⟩, .captured 3]⟩]⟩ := by rfl
  have hname : rule.name ∉ grammar.rules.map (·.name) := by decide
  have hreferences : rule.name ∉ grammar.references := by decide
  exact ⟨hbuild, hlonger, hname, hreferences,
    generate_append hbuild hlonger hname hreferences 1⟩

end PegTemplates
