import PegTemplates.Proofs.Binding.LinkReadings
import PegTemplates.Proofs.Emitting.Shapes

/-!
# Tags in label lists

Under every index of a layout some links are bound to captures, and the label list has one entry
for each of them, with the tags of the capture. These tags are collected before any shape is
laid out. A shape that is laid out has a block under each of them, a shape that is left out has
none. So a tag in a label list names a block exactly if the shape of the capture is written.
-/

namespace PegTemplates

namespace Registry

variable {registry : Registry}

/-- Whether a block is written for a shape when these links are bound. -/
def Writes (registry : Registry) (limit : Nat) (shape : Shape) (block : Block)
    (links : List BoundLink) : Prop :=
  ∃ layout ∈ (registry.layoutsOf shape).kept, ∃ index < layout.looked limit,
    layout.block registry.tagTable shape.name.isSome index = block ∧
      boundAt layout.nodes index = links

/-- Every block is written for some shape when some links are bound. -/
theorem mem_blocks_iff {limit : Nat} {block : Block} :
    block ∈ (registry.emission limit).blocks ↔
      ∃ shape ∈ registry.shapes, ∃ links, registry.Writes limit shape block links := by
  rw [emission_blocks, List.mem_flatMap]
  refine exists_congr fun shape => and_congr_right fun _ => ?_
  rw [List.mem_flatMap]
  constructor
  · rintro ⟨layout, hlayout, hblock⟩
    obtain ⟨index, hindex, hsame⟩ := TagLayout.mem_blocks.mp hblock
    exact ⟨_, layout, hlayout, index, hindex, hsame, rfl⟩
  · rintro ⟨_, layout, hlayout, index, hindex, hsame, _⟩
    exact ⟨layout, hlayout, TagLayout.mem_blocks.mpr ⟨index, hindex, hsame⟩⟩

/-- The label list of a block has the entries of the links bound. -/
theorem Writes.labels {limit : Nat} {shape : Shape} {block : Block} {links : List BoundLink}
    (hwrites : registry.Writes limit shape block links) :
    block.labels = ", ".intercalate (links.map (BoundLink.entry registry.tagTable)) := by
  obtain ⟨layout, _, index, hlooked, rfl, rfl⟩ := hwrites
  have hindex : index < rateOf layout.nodes := Nat.lt_of_lt_of_le hlooked (Nat.min_le_left _ _)
  have hlabels := (lists_linkReadingsAt registry.tagTable hindex).labels
  exact congrArg (", ".intercalate ·) hlabels

/-- The tags under which a shape is written are those of its layouts, if none is missing. -/
theorem tags_found {alternatives : List TagAlternative}
    (hcomplete : (registry.layouts alternatives).failure = none) :
    (registry.layouts alternatives).found.map (·.tag) = alternatives.map (·.tag) := by
  induction alternatives with
  | nil => rfl
  | cons alternative rest ih =>
    rw [layouts] at hcomplete ⊢
    cases hlayout : registry.layout alternative.elements with
    | error reason =>
      rw [hlayout] at hcomplete
      cases hcomplete
    | ok nodes =>
      rw [hlayout] at hcomplete
      exact congrArg (alternative.tag :: ·) (ih hcomplete)

/-- Tags are collected only for a shape that has alternatives with these tags. -/
theorem exists_of_tagTable {id : ShapeId} {names : List String} {tag : String}
    (htable : registry.tagTable[id]? = some names) (htag : tag ∈ names) :
    ∃ shape alternatives, registry.shape? id = some shape ∧
      registry.written shape = .ok alternatives ∧ tag ∈ alternatives.map (·.tag) := by
  rw [tagTable, List.getElem?_map] at htable
  obtain ⟨shape, hshape, rfl⟩ := Option.map_eq_some_iff.mp htable
  cases hwritten : registry.written shape with
  | error reason =>
    rw [hwritten] at htag
    cases htag
  | ok alternatives =>
    rw [hwritten] at htag
    exact ⟨shape, alternatives, hshape, hwritten, htag⟩

/-- A shape has a block under a tag of its alternatives exactly if it is not left out. -/
theorem Numbered.exists_block_iff (hnumbered : registry.Numbered) {shape : Shape}
    (hshape : shape ∈ registry.shapes) {limit : Nat} (hlimit : 1 ≤ limit)
    {alternatives : List TagAlternative} (hwritten : registry.written shape = .ok alternatives)
    {tag : String} (htag : tag ∈ alternatives.map (·.tag)) :
    (∃ block ∈ (registry.emission limit).blocksOf shape.id, block.tag = tag) ↔
      ∀ reason, (shape.id, reason) ∉ (registry.emission limit).report.skipped := by
  rw [hnumbered.blocksOf_eq hshape, ShapeLayouts.kept]
  simp only [hnumbered.mem_skipped_iff hshape]
  have hlayouts : registry.layoutsOf shape = registry.layouts alternatives := by
    rw [layoutsOf, hwritten]
  cases hfailure : (registry.layoutsOf shape).failure with
  | some reason => simp
  | none =>
    constructor
    · intro _ reason hmissing
      cases hmissing
    · intro _
      rw [← tags_found (hlayouts ▸ hfailure), ← hlayouts] at htag
      obtain ⟨layout, hlayout, rfl⟩ := List.mem_map.mp htag
      obtain ⟨block, hblock⟩ := layout.exists_mem_blocks hlimit
      exact ⟨block, List.mem_flatMap.mpr ⟨layout, hlayout, hblock⟩,
        TagLayout.tag_of_mem_blocks hblock⟩

end Registry

/-- Every block of a grammar is written for some shape when some links are bound, and its label
list has the entries of these links. A tag in the entry of a link bound to a capture names a
block of that capture exactly if the capture is not left out. -/
theorem Grammar.labels_name_blocks {grammar : Grammar} {registry : Registry}
    (hbuild : grammar.build = .ok registry) {limit : Nat} (hlimit : 1 ≤ limit) :
    (∀ block, block ∈ (registry.emission limit).blocks ↔
      ∃ shape ∈ registry.shapes, ∃ links, registry.Writes limit shape block links) ∧
    ∀ shape block links, registry.Writes limit shape block links →
      block.labels = ", ".intercalate (links.map (BoundLink.entry registry.tagTable)) ∧
      ∀ bound ∈ links, ∀ capture, bound.inner.capture = some capture →
        ∀ tag ∈ bound.tags registry.tagTable,
          ((∃ named ∈ (registry.emission limit).blocksOf capture, named.tag = tag) ↔
            ∀ reason, (capture, reason) ∉ (registry.emission limit).report.skipped) := by
  have hnumbered := build_numbered hbuild
  refine ⟨fun _ => Registry.mem_blocks_iff, fun shape block links hwrites => ⟨hwrites.labels, ?_⟩⟩
  -- only a shape that has alternatives has tags in the table
  intro bound _ capture hcapture tag htag
  rw [BoundLink.tags, hcapture, Option.bind_some] at htag
  cases htable : registry.tagTable[capture]? with
  | none =>
    rw [htable] at htag
    cases htag
  | some names =>
    rw [htable] at htag
    obtain ⟨target, alternatives, htarget, hwritten, hamong⟩ :=
      Registry.exists_of_tagTable htable htag
    have hid := hnumbered.id_of_shape? htarget
    subst hid
    exact hnumbered.exists_block_iff (List.mem_of_getElem? htarget) hlimit hwritten hamong

/-- Two shapes link to each other, and one of them has no tag but the name of its rule. In both
label lists the tag names a block of the other shape. -/
theorem Grammar.labels_name_blocks_in_cycle :
    let grammar : Grammar := ⟨[
      ⟨"S", .capture [.tag "T", .link (some "w") (.nonTerminal "W")]⟩,
      ⟨"W", .capture [.optional (.link (some "s") (.nonTerminal "S"))]⟩]⟩
    let first : Shape := ⟨0, some "S", [.tag "T", .linked (some "w") [.nonTerminal "W" ⟨0⟩]]⟩
    let next : Shape := ⟨1, some "W", [.optional [.linked (some "s") [.nonTerminal "S" ⟨1⟩]]]⟩
    let registry : Registry := ⟨[first, next], [⟨"S", [.captured 0]⟩, ⟨"W", [.captured 1]⟩]⟩
    grammar.build = .ok registry ∧
    registry.Writes 1 first ⟨"T", "w: #W", "${w}"⟩ [⟨some "w", false, .ofCapture 1⟩] ∧
    registry.Writes 1 next ⟨"W", "s: #T", "${s}"⟩ [⟨some "s", false, .ofCapture 0⟩] ∧
    (∃ named ∈ (registry.emission 1).blocksOf 1, named.tag = "W") ∧
    (∃ named ∈ (registry.emission 1).blocksOf 0, named.tag = "T") := by
  intro grammar first next registry
  have hbuild : grammar.build = .ok registry := by rfl
  have hfirst : (registry.layoutsOf first).kept =
      [⟨"T", [.link ⟨some "w", [.ofCapture 1]⟩]⟩] := by rfl
  have hnext : (registry.layoutsOf next).kept =
      [⟨"W", [.optional [.link ⟨some "s", [.ofCapture 0]⟩]]⟩] := by rfl
  have hfirstWrites : registry.Writes 1 first ⟨"T", "w: #W", "${w}"⟩
      [⟨some "w", false, .ofCapture 1⟩] :=
    ⟨_, hfirst ▸ List.mem_cons_self, 0, by decide +kernel, by decide +kernel, rfl⟩
  have hnextWrites : registry.Writes 1 next ⟨"W", "s: #T", "${s}"⟩
      [⟨some "s", false, .ofCapture 0⟩] :=
    ⟨_, hnext ▸ List.mem_cons_self, 0, by decide +kernel, by decide +kernel, rfl⟩
  have hskipped : (registry.emission 1).report.skipped = [] := by
    rw [Registry.report_skipped]
    rfl
  have hwritten : ∀ capture reason,
      (capture, reason) ∉ (registry.emission 1).report.skipped := by
    rw [hskipped]
    exact fun _ _ => List.not_mem_nil
  obtain ⟨_, hlabels⟩ := labels_name_blocks hbuild (Nat.le_refl 1)
  refine ⟨hbuild, hfirstWrites, hnextWrites, ?_, ?_⟩
  · exact ((hlabels _ _ _ hfirstWrites).2 _ List.mem_cons_self 1 rfl "W"
      (by decide +kernel)).mpr (hwritten 1)
  · exact ((hlabels _ _ _ hnextWrites).2 _ List.mem_cons_self 0 rfl "T"
      (by decide +kernel)).mpr (hwritten 0)

/-- A label list names a tag of a shape for which no block is written, because a rule is
undefined behind a link of that shape. -/
theorem Grammar.label_names_no_block :
    let grammar : Grammar := ⟨[
      ⟨"S", .capture [.tag "S", .link (some "w") (.nonTerminal "W")]⟩,
      ⟨"W", .capture [.tag "W", .nonTerminal "R"]⟩,
      ⟨"R", .link none (.nonTerminal "Missing")⟩]⟩
    let first : Shape := ⟨0, some "S", [.tag "S", .linked (some "w") [.nonTerminal "W" ⟨0⟩]]⟩
    let registry : Registry := ⟨
      [first, ⟨1, some "W", [.tag "W", .nonTerminal "R" ⟨1⟩]⟩],
      [⟨"S", [.captured 0]⟩, ⟨"W", [.captured 1]⟩,
        ⟨"R", [.linked none [.nonTerminal "Missing" ⟨2⟩]]⟩]⟩
    grammar.build = .ok registry ∧
    (registry.emission 1).blocks = [⟨"S", "w: #W", "${w}"⟩] ∧
    registry.Writes 1 first ⟨"S", "w: #W", "${w}"⟩ [⟨some "w", false, .ofCapture 1⟩] ∧
    "W" ∈ BoundLink.tags registry.tagTable ⟨some "w", false, .ofCapture 1⟩ ∧
    ¬ ∃ named ∈ (registry.emission 1).blocksOf 1, named.tag = "W" := by
  intro grammar first registry
  have hbuild : grammar.build = .ok registry := by rfl
  have hfirst : (registry.layoutsOf first).kept =
      [⟨"S", [.link ⟨some "w", [.ofCapture 1]⟩]⟩] := by rfl
  have hblocks : (registry.emission 1).blocksOf 1 = [] := by
    refine ((build_numbered hbuild).blocksOf_eq (List.mem_cons_of_mem _ List.mem_cons_self)
      1).trans ?_
    rfl
  refine ⟨hbuild, by decide +kernel, ?_, by decide +kernel, ?_⟩
  · exact ⟨_, hfirst ▸ List.mem_cons_self, 0, by decide +kernel, by decide +kernel, rfl⟩
  · rw [hblocks]
    rintro ⟨named, hnamed, _⟩
    exact List.not_mem_nil hnamed

end PegTemplates
