import Mathlib.Data.List.Flatten
import PegTemplates.Proofs.Emitting.Shapes

/-!
# A higher limit on bindings

The layouts of a shape do not depend on the limit, only how many of their indices are looked at
does. Under a higher limit the same indices come first, so the blocks of every alternative begin
with those under the lower one, the same shapes are left out, and no other pair is cut off. Where
the lower limit cuts nothing off the two texts are the same.
-/

namespace PegTemplates

/-- Dropping duplicates keeps what is left of the first items in front. -/
theorem eraseDups_prefix {α : Type} [BEq α] [LawfulBEq α] {first all : List α}
    (hbegins : first <+: all) : first.eraseDups <+: all.eraseDups := by
  obtain ⟨others, rfl⟩ := hbegins
  rw [List.eraseDups_append]
  exact List.prefix_append _ _

namespace TagLayout

variable (tags : TagTable) (named : Bool) {limit more : Nat} (layout : TagLayout)

/-- Under a higher limit the blocks of a layout begin with those under the lower one. -/
theorem blocks_prefix (hmore : limit ≤ more) :
    layout.blocks tags named limit <+: layout.blocks tags named more := by
  have hlooked : layout.looked limit ≤ layout.looked more := by
    unfold looked
    omega
  obtain ⟨others, hothers⟩ := Nat.exists_eq_add_of_le hlooked
  refine eraseDups_prefix (List.IsPrefix.map _ ?_)
  rw [hothers, List.range_add]
  exact List.prefix_append _ _

/-- A layout that is not cut off has the same blocks under a higher limit. -/
theorem blocks_of_rate_le (hrate : rateOf layout.nodes ≤ limit) (hmore : limit ≤ more) :
    layout.blocks tags named more = layout.blocks tags named limit := by
  have hlooked : layout.looked more = layout.looked limit := by
    rw [looked, looked, Nat.min_eq_left hrate, Nat.min_eq_left (Nat.le_trans hrate hmore)]
  rw [blocks, hlooked, blocks]

end TagLayout

/-- Under a higher limit no other tags of a shape are cut off. -/
theorem ShapeLayouts.truncated_sublist {limit more : Nat} (hmore : limit ≤ more)
    (layouts : ShapeLayouts) :
    (layouts.truncated more).Sublist (layouts.truncated limit) := by
  refine List.Sublist.map _ (List.monotone_filter_right _ fun layout hcut => ?_)
  exact decide_eq_true (Nat.lt_of_le_of_lt hmore (of_decide_eq_true hcut))

/-- The layouts that are written are among those found. -/
theorem ShapeLayouts.mem_found_of_kept {layouts : ShapeLayouts} {layout : TagLayout}
    (hkept : layout ∈ layouts.kept) : layout ∈ layouts.found := by
  unfold kept at hkept
  split at hkept
  · cases hkept
  · exact hkept

namespace Registry

variable (registry : Registry)

/-- The blocks written for a shape, one list for each of its alternatives in order of discovery;
there is none if the shape is left out. -/
def blocksByTag (limit : Nat) (shape : Shape) : List (List Block) :=
  (registry.layoutsOf shape).kept.map (·.blocks registry.tagTable shape.name.isSome limit)

/-- Emission writes the shapes in order, each with the blocks of its alternatives. -/
theorem emission_shapes_blocks (limit : Nat) :
    (registry.emission limit).shapes.map (fun each => (each.shape, each.blocks)) =
      registry.shapes.map fun shape => (shape, (registry.blocksByTag limit shape).flatten) := by
  rw [emission, List.map_map]
  refine List.map_congr_left fun shape _ => ?_
  rw [Function.comp_apply, emitShape_shape, emitShape_blocks, List.flatMap_def, blocksByTag]

/-- What a higher limit leaves as it is. -/
structure Extends (limit more : Nat) : Prop where
  /-- Every alternative of every shape keeps its blocks, and further ones stand behind them. -/
  blocks : ∀ shape ∈ registry.shapes, List.Forall₂ (· <+: ·)
    (registry.blocksByTag limit shape) (registry.blocksByTag more shape)
  /-- The same shapes are left out for the same reasons. -/
  skipped : (registry.emission more).report.skipped = (registry.emission limit).report.skipped
  /-- What is cut off under the higher limit is cut off under the lower one too. -/
  truncated : (registry.emission more).report.truncated.Sublist
    (registry.emission limit).report.truncated
  /-- Where the lower limit cuts nothing off the text stays the same. -/
  text : (registry.emission limit).report.truncated = [] →
    (registry.emission more).text = (registry.emission limit).text

variable {registry} {limit more : Nat}

/-- Where nothing is cut off no layout of a shape has too many bindings. -/
theorem rateOf_le_of_uncut (huncut : (registry.emission limit).report.truncated = [])
    {shape : Shape} (hshape : shape ∈ registry.shapes) {layout : TagLayout}
    (hfound : layout ∈ (registry.layoutsOf shape).found) : rateOf layout.nodes ≤ limit := by
  rw [report_truncated, List.flatMap_eq_nil_iff] at huncut
  have hnone := List.map_eq_nil_iff.mp (huncut shape hshape)
  rw [ShapeLayouts.truncated, List.map_eq_nil_iff, List.filter_eq_nil_iff] at hnone
  exact Nat.le_of_not_lt fun hmany => hnone layout hfound (decide_eq_true hmany)

/-- A higher limit writes further blocks behind those of an alternative and changes nothing
else. -/
theorem emission_extends (registry : Registry) (hmore : limit ≤ more) :
    (∀ cap, (registry.emission cap).shapes.map (fun each => (each.shape, each.blocks)) =
      registry.shapes.map fun shape => (shape, (registry.blocksByTag cap shape).flatten)) ∧
    registry.Extends limit more := by
  refine ⟨registry.emission_shapes_blocks, ?_, ?_, ?_, fun huncut => ?_⟩
  · intro shape _
    rw [blocksByTag, blocksByTag, List.forall₂_map_left_iff, List.forall₂_map_right_iff,
      List.forall₂_same]
    exact fun layout _ => layout.blocks_prefix _ _ hmore
  · rw [report_skipped, report_skipped]
  · rw [report_truncated, report_truncated]
    exact List.Sublist.flatMap_right _ fun shape _ =>
      ((registry.layoutsOf shape).truncated_sublist hmore).map _
  · -- no layout has more bindings than the lower limit, so both look at all of them
    have hblocks : (registry.emission more).blocks = (registry.emission limit).blocks := by
      rw [emission_blocks, emission_blocks]
      refine List.flatMap_congr fun shape hshape => List.flatMap_congr fun layout hkept => ?_
      have hrate := rateOf_le_of_uncut huncut hshape (ShapeLayouts.mem_found_of_kept hkept)
      exact layout.blocks_of_rate_le _ _ hrate hmore
    rw [Emission.text, Emission.writes, hblocks, Emission.text, Emission.writes]

/-- A shape with two bindings under its first tag and one under its second has its first tag cut
off when one binding is looked at. When two are, one more block stands under that tag. -/
theorem emission_extends_first_tag :
    let shape : Shape := ⟨2, none, [.choice [
      [.tag "Pair", .linked (some "x") [.choice [[.captured 0], [.captured 1]]]],
      [.tag "One", .linked none [.captured 0]]]]⟩
    let registry : Registry := ⟨[⟨0, none, [.tag "A"]⟩, ⟨1, none, [.tag "B"]⟩, shape], []⟩
    1 ≤ 2 ∧ registry.Extends 1 2 ∧
    registry.blocksByTag 1 shape = [[⟨"Pair", "x: #A", "${x}"⟩],
      [⟨"One", "unlabeled: #A", "${this.get(i)}"⟩]] ∧
    registry.blocksByTag 2 shape = [[⟨"Pair", "x: #A", "${x}"⟩, ⟨"Pair", "x: #B", "${x}"⟩],
      [⟨"One", "unlabeled: #A", "${this.get(i)}"⟩]] ∧
    (registry.emission 1).report.truncated = [(2, "Pair")] ∧
    (registry.emission 2).report.truncated = [] := by
  intro shape registry
  refine ⟨by decide, (registry.emission_extends (by decide)).2, by decide +kernel,
    by decide +kernel, ?_, ?_⟩
  · rw [report_truncated]
    decide +kernel
  · rw [report_truncated]
    decide +kernel

end Registry

end PegTemplates
