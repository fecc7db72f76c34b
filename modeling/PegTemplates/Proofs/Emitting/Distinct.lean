import PegTemplates.Proofs.Emitting.Shapes

/-!
# Blocks of a shape under one tag

A tag can be found more than once in a shape, each time with a layout of its own. Blocks are
kept distinct, and are cut off at the limit, within the layout that gives them. So all blocks
of a shape under one tag are distinct and no more than the limit exactly if no two of the
layouts for that tag give a block in common and their blocks are few enough together.
-/

namespace PegTemplates

/-- The layouts whose blocks are written under a tag. -/
def ShapeLayouts.under (tag : String) (layouts : ShapeLayouts) : List TagLayout :=
  layouts.kept.filter (·.tag == tag)

/-- Whether no index looked at in one layout gives a block that one in the other gives too. -/
def TagLayout.Apart (tags : TagTable) (named : Bool) (limit : Nat) (first next : TagLayout) :
    Prop :=
  ∀ index < first.looked limit, ∀ other < next.looked limit,
    first.block tags named index ≠ next.block tags named other

instance (tags : TagTable) (named : Bool) (limit : Nat) (first next : TagLayout) :
    Decidable (first.Apart tags named limit next) :=
  inferInstanceAs (Decidable (∀ index < first.looked limit, ∀ other < next.looked limit,
    first.block tags named index ≠ next.block tags named other))

/-- What is written of a block apart from its tag. -/
def Block.content (block : Block) : String × String := (block.labels, block.body)

section Layouts

variable {tags : TagTable} {named : Bool} {limit : Nat}

/-- Layouts are apart exactly if their blocks are disjoint. -/
theorem TagLayout.apart_iff {first next : TagLayout} : first.Apart tags named limit next ↔
    List.Disjoint (first.blocks tags named limit) (next.blocks tags named limit) := by
  constructor
  · intro hapart block hfirst hnext
    obtain ⟨index, hindex, rfl⟩ := mem_blocks.mp hfirst
    obtain ⟨other, hother, hsame⟩ := mem_blocks.mp hnext
    exact hapart index hindex other hother hsame.symm
  · intro hdisjoint index hindex other hother hsame
    exact hdisjoint (mem_blocks.mpr ⟨index, hindex, rfl⟩)
      (mem_blocks.mpr ⟨other, hother, hsame.symm⟩)

/-- The blocks of several layouts are distinct exactly if the layouts are apart. -/
theorem nodup_flatMap_blocks_iff {layouts : List TagLayout} :
    (layouts.flatMap (·.blocks tags named limit)).Nodup ↔
      layouts.Pairwise (TagLayout.Apart tags named limit) := by
  rw [List.nodup_flatMap]
  constructor
  · rintro ⟨_, hdisjoint⟩
    exact hdisjoint.imp fun hpair => TagLayout.apart_iff.mpr hpair
  · intro hapart
    exact ⟨fun _ _ => TagLayout.nodup_blocks, hapart.imp fun hpair => TagLayout.apart_iff.mp hpair⟩

/-- Under a tag stand the blocks of the layouts for that tag. -/
theorem filter_flatMap_blocks (tag : String) (layouts : List TagLayout) :
    (layouts.flatMap (·.blocks tags named limit)).filter (·.tag == tag) =
      (layouts.filter (·.tag == tag)).flatMap (·.blocks tags named limit) := by
  induction layouts with
  | nil => rfl
  | cons layout rest ih =>
    rw [List.flatMap_cons, List.filter_append, ih, List.filter_cons]
    by_cases htag : layout.tag == tag
    · have hall : (layout.blocks tags named limit).filter (·.tag == tag) =
          layout.blocks tags named limit := by
        refine List.filter_eq_self.mpr fun block hblock => ?_
        rwa [TagLayout.tag_of_mem_blocks hblock]
      rw [if_pos htag, hall, List.flatMap_cons]
    · have hnone : (layout.blocks tags named limit).filter (·.tag == tag) = [] := by
        refine List.filter_eq_nil_iff.mpr fun block hblock => ?_
        rwa [TagLayout.tag_of_mem_blocks hblock]
      rw [if_neg htag, hnone, List.nil_append]

/-- Blocks under one tag are told apart by what is written of them. -/
theorem nodup_content_iff {tag : String} {blocks : List Block}
    (htag : ∀ block ∈ blocks, block.tag = tag) :
    (blocks.map Block.content).Nodup ↔ blocks.Nodup := by
  refine ⟨List.Nodup.of_map _, fun hnodup => hnodup.map_on ?_⟩
  rintro ⟨first, firstLabels, firstBody⟩ hfirst ⟨next, nextLabels, nextBody⟩ hnext hsame
  obtain rfl : first = tag := htag _ hfirst
  obtain rfl : next = first := htag _ hnext
  obtain ⟨rfl, rfl⟩ := Prod.mk.inj hsame
  rfl

end Layouts

/-- The blocks of a shape of a grammar under one tag are those of its layouts for that tag, of
which each has distinct blocks and no more than the limit. All of them are distinct and no more
than the limit exactly if no two of the layouts give a block in common and the layouts have no
more blocks than that together. -/
theorem Grammar.blocks_under_tag {grammar : Grammar} {registry : Registry}
    (hbuild : grammar.build = .ok registry) {shape : Shape} (hshape : shape ∈ registry.shapes)
    (limit : Nat) (tag : String) :
    let layouts := (registry.layoutsOf shape).under tag
    let own := TagLayout.blocks registry.tagTable shape.name.isSome limit
    let written := ((registry.emission limit).blocksOf shape.id).filter (·.tag == tag)
    written = layouts.flatMap own ∧
      (∀ layout ∈ layouts,
        ((own layout).map Block.content).Nodup ∧ (own layout).length ≤ limit) ∧
      ((written.map Block.content).Nodup ∧ written.length ≤ limit ↔
        layouts.Pairwise (TagLayout.Apart registry.tagTable shape.name.isSome limit) ∧
          (layouts.flatMap own).length ≤ limit) := by
  intro layouts own written
  have hwritten : written = layouts.flatMap own := by
    have hblocks := (build_numbered hbuild).blocksOf_eq hshape limit
    change ((registry.emission limit).blocksOf shape.id).filter (·.tag == tag) = _
    rw [hblocks, filter_flatMap_blocks]
    rfl
  have htag : ∀ block ∈ written, block.tag = tag := fun block hblock =>
    beq_iff_eq.mp (List.mem_filter.mp hblock).2
  refine ⟨hwritten, fun layout hlayout => ⟨?_, TagLayout.length_blocks_le⟩, ?_⟩
  · have hown : ∀ block ∈ own layout, block.tag = layout.tag :=
      fun _ => TagLayout.tag_of_mem_blocks
    exact (nodup_content_iff hown).mpr TagLayout.nodup_blocks
  · rw [nodup_content_iff htag, hwritten, nodup_flatMap_blocks_iff]

/-- A tag is found twice in a shape, before links of different labels. With two bindings looked
at, both blocks may be written. -/
theorem Grammar.blocks_under_tag_before_labels :
    let grammar : Grammar := ⟨[
      ⟨"S", .capture [.choice [.sequence [.tag "A", .link (some "x") (.nonTerminal "X")],
        .sequence [.tag "A", .link (some "y") (.nonTerminal "X")]]]⟩,
      ⟨"X", .capture [.tag "X"]⟩]⟩
    let shape : Shape := ⟨0, some "S", [.choice [
      [.tag "A", .linked (some "x") [.nonTerminal "X" ⟨0⟩]],
      [.tag "A", .linked (some "y") [.nonTerminal "X" ⟨1⟩]]]]⟩
    let registry : Registry :=
      ⟨[shape, ⟨1, some "X", [.tag "X"]⟩], [⟨"S", [.captured 0]⟩, ⟨"X", [.captured 1]⟩]⟩
    let written := ((registry.emission 2).blocksOf 0).filter (·.tag == "A")
    grammar.build = .ok registry ∧ shape ∈ registry.shapes ∧
      (written.map Block.content).Nodup ∧ written.length ≤ 2 ∧
      written = [⟨"A", "x: #X", "${x}"⟩, ⟨"A", "y: #X", "${y}"⟩] := by
  intro grammar shape registry written
  have hbuild : grammar.build = .ok registry := by rfl
  have hshape : shape ∈ registry.shapes := List.mem_cons_self
  obtain ⟨hwritten, _, hiff⟩ := blocks_under_tag hbuild hshape 2 "A"
  obtain ⟨hnodup, hlength⟩ := hiff.mpr (by decide +kernel)
  refine ⟨hbuild, hshape, hnodup, hlength, ?_⟩
  exact hwritten.trans (by decide +kernel)

/-- A tag is found twice in a shape, and its block is written twice although no more than one
binding is looked at. -/
theorem Grammar.blocks_under_tag_repeated :
    let grammar : Grammar := ⟨[⟨"A", .capture [.choice [.tag "A", .tag "A"]]⟩]⟩
    let registry : Registry :=
      ⟨[⟨0, some "A", [.choice [[.tag "A"], [.tag "A"]]]⟩], [⟨"A", [.captured 0]⟩]⟩
    let written := ((registry.emission 1).blocksOf 0).filter (·.tag == "A")
    grammar.build = .ok registry ∧
      written = [⟨"A", "", "${this.toText()}"⟩, ⟨"A", "", "${this.toText()}"⟩] ∧
      ¬ ((written.map Block.content).Nodup ∧ written.length ≤ 1) := by
  intro grammar registry written
  have hbuild : grammar.build = .ok registry := by rfl
  have hwritten : written = [⟨"A", "", "${this.toText()}"⟩, ⟨"A", "", "${this.toText()}"⟩] := by
    have hblocks := (build_numbered hbuild).blocksOf_eq List.mem_cons_self 1
    refine (congrArg (List.filter (·.tag == "A")) hblocks).trans ?_
    decide +kernel
  refine ⟨hbuild, hwritten, ?_⟩
  rw [hwritten]
  exact fun hcapped => absurd hcapped.2 (by decide)

end PegTemplates
