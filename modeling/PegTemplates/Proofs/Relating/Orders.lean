import PegTemplates.Proofs.Relating.Blocks
import PegTemplates.Proofs.Relating.Reordering

/-!
# The order of the rules

A grammar with distinct rule names comes to the same registry in any order of its rules, but for
numbers and order: the same names stand for the same bodies, and every shape is there under its
new number. So shape by shape the same is written and reported, and only the order of the shapes
is different. Whether the grammar is built does not depend on the order either, because a rule
is refused for nothing but its own captures.
-/

namespace PegTemplates

/-- A builder that has come to the same in another order holds all that the other one holds. -/
theorem Builder.Reordered.holds {numbers : Renumbering} {builder other : Builder}
    (hsame : Reordered numbers builder other) (hnodup : builder.names.Nodup)
    (hnumbered : builder.registry.Numbered) (hnumberedOther : other.registry.Numbered) :
    builder.registry.Holds numbers (fun _ => True) other.registry := by
  refine ⟨⟨hsame.bijective.1.1, hsame.bijective.2.1, ?_, fun _ _ _ _ => trivial,
    hsame.rules.symm.subperm⟩, ?_, fun _ _ _ _ => trivial⟩
  · intro reference _
    have hnodupOther : other.names.Nodup := hsame.names.nodup_iff.mpr hnodup
    apply Option.ext
    intro body
    rw [Registry.body?, find?_name_eq_some_iff hnodupOther, hsame.rules.mem_iff, List.mem_map,
      Option.map_eq_some_iff]
    constructor
    · rintro ⟨⟨original, horiginal, rfl⟩, hname⟩
      exact ⟨original, (find?_name_eq_some_iff hnodup).mpr ⟨horiginal, hname⟩, rfl⟩
    · rintro ⟨original, hfound, rfl⟩
      obtain ⟨horiginal, hname⟩ := (find?_name_eq_some_iff hnodup).mp hfound
      exact ⟨⟨original, horiginal, rfl⟩, hname⟩
  · intro id
    cases hshape : builder.registry.shape? id with
    | none =>
      have hbehind : builder.registry.size ≤ id := List.getElem?_eq_none_iff.mp hshape
      rw [hsame.capture id hbehind]
      exact List.getElem?_eq_none (Nat.le_trans (Nat.le_of_eq hsame.size) hbehind)
    | some shape =>
      have hthere : shape.renumber numbers ∈ other.registry.shapes :=
        hsame.shapes.mem_iff.mpr (List.mem_map_of_mem (List.mem_of_getElem? hshape))
      have hfound := hnumberedOther.shape?_id hthere
      rw [← hnumbered.id_of_shape? hshape]
      exact hfound

/-- Whether the same is written and reported in another order, numbers of shapes left out. -/
structure Emission.Reorders (first next : Emission) : Prop where
  /-- The same blocks are written. -/
  blocks : first.blocks.Perm next.blocks
  /-- There are as many shapes. -/
  shapeCount : first.report.shapes = next.report.shapes
  /-- There are as many blocks. -/
  blockCount : first.report.blocks = next.report.blocks
  /-- Shapes are left out for the same reasons. -/
  skipped : (first.report.skipped.map Prod.snd).Perm (next.report.skipped.map Prod.snd)
  /-- The same tags are cut off. -/
  truncated : (first.report.truncated.map Prod.snd).Perm (next.report.truncated.map Prod.snd)

/-- A registry that holds the shapes of another one, and no others, writes and reports the same
in the order of its own numbers. -/
theorem Registry.Holds.reorders {numbers : Renumbering} {known : Reference → Prop}
    {registry other : Registry} (hholds : registry.Holds numbers known other)
    (hshapes : other.shapes.Perm (registry.shapes.map (·.renumber numbers))) (limit : Nat) :
    (registry.emission limit).Reorders (other.emission limit) := by
  have hblocks : (registry.emission limit).blocks.Perm (other.emission limit).blocks := by
    rw [emission_blocks, emission_blocks]
    refine List.Perm.trans (.of_eq ?_) (hshapes.flatMap_right _).symm
    rw [List.flatMap_map]
    exact List.flatMap_congr fun shape hshape => (hholds.blocks_renumber hshape limit).symm
  refine ⟨hblocks, ?_, hblocks.length_eq, ?_, ?_⟩
  · have hlength := hshapes.length_eq
    rw [List.length_map] at hlength
    rw [Emission.report, Emission.report, emission, emission, List.length_map, List.length_map,
      hlength]
  · rw [report_skipped, report_skipped, List.map_filterMap, List.map_filterMap]
    refine List.Perm.trans (.of_eq ?_) (hshapes.filterMap _).symm
    rw [List.filterMap_map]
    refine List.filterMap_congr fun shape hshape => ?_
    rw [Function.comp_apply, hholds.failure_renumber hshape, Option.map_map, Option.map_map]
    rfl
  · rw [report_truncated, report_truncated, List.map_flatMap, List.map_flatMap]
    refine List.Perm.trans (.of_eq ?_) (hshapes.flatMap_right _).symm
    rw [List.flatMap_map]
    refine List.flatMap_congr fun shape hshape => ?_
    rw [hholds.truncated_renumber hshape, List.map_map, List.map_map]
    rfl

namespace Grammar

variable {grammar other : Grammar}

/-- In another order the rules of a grammar come to the same. -/
theorem exists_reordered {builder : Builder} (hnodup : (grammar.rules.map (·.name)).Nodup)
    (hperm : grammar.rules.Perm other.rules)
    (hadd : Builder.fresh.addRules grammar.rules = (.ok (), builder)) :
    ∃ numbers reordered, Builder.fresh.addRules other.rules = (.ok (), reordered) ∧
      Builder.Reordered numbers builder reordered :=
  Builder.Reordered.of_perm hperm Builder.settled_fresh hnodup hadd

/-- Under distinct names the order of the rules does not matter: a grammar is built in every
order or in none, and if it is built the same is written and reported, in another order and under
other numbers. -/
theorem generate_perm (hnodup : (grammar.rules.map (·.name)).Nodup)
    (hperm : grammar.rules.Perm other.rules) (limit : Nat) :
    ((∃ registry, grammar.build = .ok registry) ↔ ∃ registry, other.build = .ok registry) ∧
      ∀ registry, grammar.build = .ok registry → ∃ emission reordered,
        grammar.generate limit = .ok emission ∧ other.generate limit = .ok reordered ∧
          emission.Reorders reordered := by
  have hnodupOther : (other.rules.map (·.name)).Nodup := (hperm.map _).nodup_iff.mp hnodup
  refine ⟨⟨?_, ?_⟩, ?_⟩
  · rintro ⟨registry, hbuild⟩
    obtain ⟨builder, hadd, _⟩ := build_eq_ok.mp hbuild
    obtain ⟨_, reordered, haddOther, _⟩ := exists_reordered hnodup hperm hadd
    exact ⟨reordered.registry, build_eq_ok.mpr ⟨reordered, haddOther, rfl⟩⟩
  · rintro ⟨registry, hbuild⟩
    obtain ⟨builder, hadd, _⟩ := build_eq_ok.mp hbuild
    obtain ⟨_, reordered, haddOther, _⟩ := exists_reordered hnodupOther hperm.symm hadd
    exact ⟨reordered.registry, build_eq_ok.mpr ⟨reordered, haddOther, rfl⟩⟩
  · intro registry hbuild
    obtain ⟨builder, hadd, rfl⟩ := build_eq_ok.mp hbuild
    obtain ⟨numbers, reordered, haddOther, hreordered⟩ := exists_reordered hnodup hperm hadd
    have hbuildOther : other.build = .ok reordered.registry :=
      build_eq_ok.mpr ⟨reordered, haddOther, rfl⟩
    have hadded : builder.names = Builder.fresh.names ++ grammar.rules.map (·.name) :=
      Builder.names_addRules hnodup hadd
    have hnames : builder.names.Nodup := hadded ▸ hnodup
    have hholds := hreordered.holds hnames (build_numbered hbuild) (build_numbered hbuildOther)
    exact ⟨_, _, by rw [generate, hbuild]; rfl, by rw [generate, hbuildOther]; rfl,
      hholds.reorders hreordered.shapes limit⟩

/-- A fold in a repetition, of which not all bindings are looked at, and a shape that is left out:
the one comes behind the other, with other numbers and other sites. -/
theorem generate_perm_fold :
    let sum : Rule := ⟨"S", .sequence [.nonTerminal "W", .zeroOrMore (.sequence
      [.fold none, .link none (.nonTerminal "W"), .tag "Sum", .endCapture])]⟩
    let word : Rule := ⟨"W", .capture [.byte 97]⟩
    let loose : Rule := ⟨"U", .capture [.nonTerminal "X"]⟩
    let registry : Registry := ⟨[⟨0, none, [.linked none
      [.choice [[.captured 0], [.nonTerminal "W" ⟨0⟩]]], .linked none [.nonTerminal "W" ⟨1⟩],
      .tag "Sum"]⟩, ⟨1, some "W", [.byte 97]⟩, ⟨2, some "U", [.nonTerminal "X" ⟨2⟩]⟩],
      [⟨"S", [.choice [[.captured 0], [.nonTerminal "W" ⟨0⟩]]]⟩, ⟨"W", [.captured 1]⟩,
        ⟨"U", [.captured 2]⟩]⟩
    ([sum, word, loose].map (·.name)).Nodup ∧ [sum, word, loose].Perm [loose, sum, word] ∧
      (Grammar.mk [sum, word, loose]).build = .ok registry ∧
      (∃ reordered, (Grammar.mk [loose, sum, word]).build = .ok reordered) ∧
      ∃ emission reordered, (Grammar.mk [sum, word, loose]).generate 1 = .ok emission ∧
        (Grammar.mk [loose, sum, word]).generate 1 = .ok reordered ∧
          emission.Reorders reordered := by
  intro sum word loose registry
  have hnodup : ([sum, word, loose].map (·.name)).Nodup := by decide
  have hperm : [sum, word, loose].Perm [loose, sum, word] :=
    @List.perm_append_comm _ [sum, word] [loose]
  have hbuild : (Grammar.mk [sum, word, loose]).build = .ok registry := by rfl
  obtain ⟨hbuilt, hsame⟩ := @generate_perm ⟨[sum, word, loose]⟩ ⟨[loose, sum, word]⟩ hnodup hperm 1
  exact ⟨hnodup, hperm, hbuild, hbuilt.mp ⟨registry, hbuild⟩, hsame registry hbuild⟩

end Grammar

end PegTemplates
