import Mathlib.Data.List.Perm.Subperm
import PegTemplates.Emission
import PegTemplates.Proofs.Binding.MixedRadix
import PegTemplates.Proofs.Building.Registration

/-!
# Shapes and their blocks

A shape is written from the layouts of its alternatives, up to the first alternative that has
no layout. Here these layouts are data of their own. The blocks of a layout are those of its
first indices, each kept where it first occurs, so they are distinct and no more than the
limit. Emission is shown to give, shape by shape, what is read off the layouts: the blocks of
all of them or the reason why one is missing, and the tags of those with more bindings than
the limit.
-/

namespace PegTemplates

/-- Dropping duplicates leaves no more than there was. -/
theorem length_eraseDups_le {α : Type} [BEq α] [LawfulBEq α] (items : List α) :
    items.eraseDups.length ≤ items.length :=
  ((nodup_eraseDups items).subperm fun _ hitem => List.mem_eraseDups.mp hitem).length_le

/-- A tag of a shape with the layout that its blocks are written from. -/
structure TagLayout where
  /-- The tag. -/
  tag : String
  /-- Layout of the sequence specialized for the tag. -/
  nodes : List Node

namespace TagLayout

/-- The block that an index of the layout gives. -/
def block (tags : TagTable) (named : Bool) (layout : TagLayout) (index : Nat) : Block :=
  let resolved := resolveLayout tags false index layout.nodes
  let binding : Binding := ⟨index, resolved.labels, resolved.slots⟩
  ⟨layout.tag, binding.labelList, binding.body named⟩

/-- Number of indices that are looked at. -/
def looked (limit : Nat) (layout : TagLayout) : Nat := min (rateOf layout.nodes) limit

/-- The distinct blocks that the indices looked at give, in order of the first of them. -/
def blocks (tags : TagTable) (named : Bool) (limit : Nat) (layout : TagLayout) : List Block :=
  ((List.range (layout.looked limit)).map (layout.block tags named)).eraseDups

variable {tags : TagTable} {named : Bool} {limit : Nat} {layout : TagLayout} {block : Block}

/-- A block is one of those of a layout exactly if some index looked at gives it. -/
theorem mem_blocks : block ∈ layout.blocks tags named limit ↔
    ∃ index < layout.looked limit, layout.block tags named index = block := by
  rw [blocks, List.mem_eraseDups, List.mem_map]
  exact exists_congr fun index => and_congr_left fun _ => List.mem_range

/-- The blocks of a layout stand under its tag. -/
theorem tag_of_mem_blocks (hblock : block ∈ layout.blocks tags named limit) :
    block.tag = layout.tag := by
  obtain ⟨index, _, rfl⟩ := mem_blocks.mp hblock
  rfl

/-- The blocks of a layout are distinct. -/
theorem nodup_blocks : (layout.blocks tags named limit).Nodup := nodup_eraseDups _

/-- There are no more of them than are looked at. -/
theorem length_blocks_le : (layout.blocks tags named limit).length ≤ limit := by
  refine Nat.le_trans (length_eraseDups_le _) ?_
  rw [List.length_map, List.length_range]
  exact Nat.min_le_right _ _

/-- A layout has a block if any index is looked at. -/
theorem exists_mem_blocks (hlimit : 1 ≤ limit) :
    ∃ block, block ∈ layout.blocks tags named limit := by
  have hlooked : 0 < layout.looked limit := Nat.lt_min.mpr ⟨rateOf_pos layout.nodes, hlimit⟩
  exact ⟨_, mem_blocks.mpr ⟨0, hlooked, rfl⟩⟩

/-- The first bindings give the blocks of the indices looked at. -/
theorem map_firstBindings : (firstBindings tags layout.nodes limit).map
      (fun binding => ⟨layout.tag, binding.labelList, binding.body named⟩) =
    (List.range (layout.looked limit)).map (layout.block tags named) := by
  unfold firstBindings
  rw [List.map_filterMap, ← List.filterMap_eq_map]
  refine List.filterMap_congr fun index hindex => ?_
  have hrate : index < rateOf layout.nodes :=
    Nat.lt_of_lt_of_le (List.mem_range.mp hindex) (Nat.min_le_left _ _)
  rw [resolve, if_pos hrate]
  rfl

end TagLayout

/-- A block has been written after another one exactly if it is that one or was before. -/
theorem Written.contains_add (written : Written) (block other : Block) :
    (written.add block).contains other = (other == block || written.contains other) := by
  rw [Bool.eq_iff_iff, Bool.or_eq_true, beq_iff_eq, contains, contains,
    (written.add block).contains_iff, written.contains_iff]
  exact List.mem_cons

/-- Blocks are written behind those written before, unless they were written, each where it
first occurs. -/
theorem distinctBlocks_eq (id : ShapeId) (tag : String) (named : Bool) (written : Written)
    (repeats : List Event) (bindings : List Binding) :
    (distinctBlocks id tag named written repeats bindings).1 = written.blocks.reverse ++
      ((bindings.map fun binding => ⟨tag, binding.labelList, binding.body named⟩).filter
        fun block => !written.contains block).eraseDups := by
  induction bindings generalizing written repeats with
  | nil => simp [distinctBlocks]
  | cons binding rest ih =>
    rw [distinctBlocks, List.map_cons]
    split
    · rename_i hwritten
      rw [ih, List.filter_cons_of_neg (by simp [hwritten])]
    · rename_i hnew
      rw [ih, List.filter_cons_of_pos (by simp [hnew]), List.eraseDups_cons, List.filter_filter]
      simp only [Written.contains_add, Bool.not_or]
      simp [Written.add]

/-- The blocks written for a layout are its distinct blocks. -/
theorem TagLayout.distinctBlocks_fst (tags : TagTable) (named : Bool) (limit : Nat)
    (layout : TagLayout) (id : ShapeId) :
    (distinctBlocks id layout.tag named .none [] (firstBindings tags layout.nodes limit)).1 =
      layout.blocks tags named limit := by
  have hnothing : (fun block => !Written.none.contains block) = fun _ => true := by
    funext block
    simp [Written.contains, Written.none]
  rw [distinctBlocks_eq, map_firstBindings, hnothing, List.filter_true]
  rfl

/-- The layouts from which a shape is written. -/
structure ShapeLayouts where
  /-- The layouts in order of discovery of the tags, up to the first one that is missing. -/
  found : List TagLayout
  /-- The reason why a layout is missing. -/
  failure : Option AnalysisError

namespace ShapeLayouts

/-- Tags of which not all bindings are looked at. -/
def truncated (limit : Nat) (layouts : ShapeLayouts) : List String :=
  (layouts.found.filter fun layout => limit < rateOf layout.nodes).map (·.tag)

/-- The layouts whose blocks are written: all of them, or none if one is missing. -/
def kept (layouts : ShapeLayouts) : List TagLayout :=
  match layouts.failure with
  | some _ => []
  | none => layouts.found

/-- Blocks of all layouts, or the reason why one is missing. -/
def outcome (tags : TagTable) (named : Bool) (limit : Nat) (layouts : ShapeLayouts) :
    Except AnalysisError (List Block) :=
  match layouts.failure with
  | some reason => .error reason
  | none => .ok (layouts.found.flatMap (·.blocks tags named limit))

section Cons

variable (tags : TagTable) (named : Bool) (limit : Nat) (layout : TagLayout)
  (found : List TagLayout) (failure : Option AnalysisError)

/-- One more layout may have too many bindings. -/
theorem truncated_cons : truncated limit ⟨layout :: found, failure⟩ =
    (if limit < rateOf layout.nodes then [layout.tag] else []) ++
      truncated limit ⟨found, failure⟩ := by
  unfold truncated
  by_cases hcut : limit < rateOf layout.nodes <;> simp [hcut]

/-- One more layout puts its blocks in front. -/
theorem outcome_cons : outcome tags named limit ⟨layout :: found, failure⟩ =
    (outcome tags named limit ⟨found, failure⟩).map (layout.blocks tags named limit ++ ·) := by
  cases failure <;> rfl

end Cons

end ShapeLayouts

namespace Registry

/-- Layouts of alternatives, up to the first one that has none. -/
def layouts (registry : Registry) : List TagAlternative → ShapeLayouts
  | [] => ⟨[], none⟩
  | ⟨tag, elements⟩ :: rest =>
    match registry.layout elements with
    | .error reason => ⟨[], some reason⟩
    | .ok nodes => ⟨⟨tag, nodes⟩ :: (registry.layouts rest).found, (registry.layouts rest).failure⟩

/-- Layouts from which a shape is written. -/
def layoutsOf (registry : Registry) (shape : Shape) : ShapeLayouts :=
  match registry.written shape with
  | .error reason => ⟨[], some reason⟩
  | .ok alternatives => registry.layouts alternatives

variable {registry : Registry}

/-- Emission from alternatives gives what is read off their layouts. -/
theorem emitAlternatives_eq (tags : TagTable) (limit : Nat) (shape : Shape)
    (alternatives : List TagAlternative) :
    ∃ events, registry.emitAlternatives tags limit shape alternatives =
      ⟨shape, (registry.layouts alternatives).truncated limit,
        (registry.layouts alternatives).outcome tags shape.name.isSome limit, events⟩ := by
  induction alternatives with
  | nil => exact ⟨[], rfl⟩
  | cons alternative rest ih =>
    obtain ⟨tag, elements⟩ := alternative
    obtain ⟨events, hrest⟩ := ih
    rw [emitAlternatives, layouts, hrest]
    cases registry.layout elements with
    | error reason => exact ⟨_, rfl⟩
    | ok nodes =>
      -- the blocks in front are those that the scan of the first bindings keeps
      dsimp only
      rw [ShapeLayouts.truncated_cons, ShapeLayouts.outcome_cons,
        ← TagLayout.distinctBlocks_fst tags shape.name.isSome limit ⟨tag, nodes⟩ shape.id]
      exact ⟨_, rfl⟩

section Shape

variable (tags : TagTable) (limit : Nat) (shape : Shape)

/-- Emission of a shape gives what is read off its layouts. -/
theorem emitShape_eq : ∃ events, registry.emitShape tags limit shape =
    ⟨shape, (registry.layoutsOf shape).truncated limit,
      (registry.layoutsOf shape).outcome tags shape.name.isSome limit, events⟩ := by
  unfold emitShape layoutsOf
  cases registry.written shape with
  | error reason => exact ⟨[], rfl⟩
  | ok alternatives =>
    obtain ⟨events, hemission⟩ := emitAlternatives_eq tags limit shape alternatives
    dsimp only
    rw [hemission]
    exact ⟨_, rfl⟩

theorem emitShape_shape : (registry.emitShape tags limit shape).shape = shape := by
  obtain ⟨_, hemission⟩ := registry.emitShape_eq tags limit shape
  rw [hemission]

theorem emitShape_truncated : (registry.emitShape tags limit shape).truncated =
    (registry.layoutsOf shape).truncated limit := by
  obtain ⟨_, hemission⟩ := registry.emitShape_eq tags limit shape
  rw [hemission]

/-- A shape has the blocks of its layouts, none if one is missing. -/
theorem emitShape_blocks : (registry.emitShape tags limit shape).blocks =
    (registry.layoutsOf shape).kept.flatMap (·.blocks tags shape.name.isSome limit) := by
  obtain ⟨_, hemission⟩ := registry.emitShape_eq tags limit shape
  rw [hemission, ShapeEmission.blocks, ShapeLayouts.outcome, ShapeLayouts.kept]
  cases (registry.layoutsOf shape).failure <;> rfl

/-- A shape is left out exactly if one of its layouts is missing. -/
theorem emitShape_skipped? : (registry.emitShape tags limit shape).skipped? =
    (registry.layoutsOf shape).failure.map (shape.id, ·) := by
  obtain ⟨_, hemission⟩ := registry.emitShape_eq tags limit shape
  rw [hemission, ShapeEmission.skipped?, ShapeLayouts.outcome]
  cases (registry.layoutsOf shape).failure <;> rfl

end Shape

/-- The blocks written are those of the layouts of all shapes. -/
theorem emission_blocks (limit : Nat) : (registry.emission limit).blocks =
    registry.shapes.flatMap fun shape => (registry.layoutsOf shape).kept.flatMap
      (·.blocks registry.tagTable shape.name.isSome limit) := by
  rw [Emission.blocks, emission, List.flatMap_map]
  exact List.flatMap_congr fun shape _ => registry.emitShape_blocks _ _ shape

/-- The shapes left out are those of which a layout is missing. -/
theorem report_skipped (limit : Nat) : (registry.emission limit).report.skipped =
    registry.shapes.filterMap fun shape =>
      (registry.layoutsOf shape).failure.map (shape.id, ·) := by
  rw [Emission.report, emission, List.filterMap_map]
  exact List.filterMap_congr fun shape _ => registry.emitShape_skipped? _ _ shape

/-- The pairs cut off are the shapes with the tags of their layouts that have too many
bindings. -/
theorem report_truncated (limit : Nat) : (registry.emission limit).report.truncated =
    registry.shapes.flatMap fun shape =>
      ((registry.layoutsOf shape).truncated limit).map (shape.id, ·) := by
  rw [Emission.report, emission, List.flatMap_map]
  exact List.flatMap_congr fun shape _ => by
    rw [emitShape_shape, emitShape_truncated]

/-- Whatever is left out is a shape of which a layout is missing. -/
theorem exists_of_skipped {limit : Nat} {id : ShapeId} {reason : AnalysisError}
    (hskipped : (id, reason) ∈ (registry.emission limit).report.skipped) :
    ∃ shape ∈ registry.shapes, shape.id = id ∧
      (registry.layoutsOf shape).failure = some reason := by
  rw [report_skipped, List.mem_filterMap] at hskipped
  obtain ⟨shape, hshape, hentry⟩ := hskipped
  obtain ⟨_, hfailure, hsame⟩ := Option.map_eq_some_iff.mp hentry
  obtain ⟨rfl, rfl⟩ := Prod.mk.inj hsame
  exact ⟨shape, hshape, rfl, hfailure⟩

/-- Whatever is cut off is a shape under the tag of a layout with too many bindings. -/
theorem exists_of_truncated {limit : Nat} {id : ShapeId} {tag : String}
    (hcut : (id, tag) ∈ (registry.emission limit).report.truncated) :
    ∃ shape ∈ registry.shapes, shape.id = id ∧ ∃ layout ∈ (registry.layoutsOf shape).found,
      limit < rateOf layout.nodes ∧ layout.tag = tag := by
  rw [report_truncated, List.mem_flatMap] at hcut
  obtain ⟨shape, hshape, hentry⟩ := hcut
  obtain ⟨_, htag, hsame⟩ := List.mem_map.mp hentry
  obtain ⟨rfl, rfl⟩ := Prod.mk.inj hsame
  obtain ⟨layout, hlayout, rfl⟩ := List.mem_map.mp htag
  obtain ⟨hfound, hmany⟩ := List.mem_filter.mp hlayout
  exact ⟨shape, hshape, rfl, layout, hfound, of_decide_eq_true hmany, rfl⟩

end Registry

/-- The blocks that are written for the shape of that number. -/
def Emission.blocksOf (emission : Emission) (id : ShapeId) : List Block :=
  (emission.shapes.filter (·.shape.id == id)).flatMap (·.blocks)

namespace Registry.Numbered

variable {registry : Registry} (hnumbered : registry.Numbered) {shape : Shape}
  (hshape : shape ∈ registry.shapes) (limit : Nat)

include hnumbered hshape

/-- One shape carries a number. -/
theorem filter_id : registry.shapes.filter (·.id == shape.id) = [shape] := by
  obtain ⟨before, behind, hshapes⟩ := List.append_of_mem hshape
  have hnodup : (registry.shapes.map Shape.id).Nodup := hnumbered ▸ List.nodup_range
  rw [hshapes, List.map_append, List.map_cons, List.nodup_middle, List.nodup_cons,
    List.mem_append, not_or] at hnodup
  have hnone : ∀ others : List Shape, shape.id ∉ others.map Shape.id →
      others.filter (·.id == shape.id) = [] := by
    intro others hother
    rw [List.filter_eq_nil_iff]
    intro other hmem hsame
    exact hother (List.mem_map.mpr ⟨other, hmem, beq_iff_eq.mp hsame⟩)
  have hself : (shape.id == shape.id) = true := beq_self_eq_true _
  rw [hshapes, List.filter_append, List.filter_cons, if_pos hself, hnone before hnodup.1.1,
    hnone behind hnodup.1.2, List.nil_append]

/-- Under the number of a shape the blocks of its layouts are written. -/
theorem blocksOf_eq : (registry.emission limit).blocksOf shape.id =
    (registry.layoutsOf shape).kept.flatMap
      (·.blocks registry.tagTable shape.name.isSome limit) := by
  have hfilter : (registry.emission limit).shapes.filter (·.shape.id == shape.id) =
      [registry.emitShape registry.tagTable limit shape] := by
    have hsame : (fun each : ShapeEmission => each.shape.id == shape.id) ∘
        registry.emitShape registry.tagTable limit = fun other => other.id == shape.id := by
      funext other
      exact congrArg (·.id == shape.id) (registry.emitShape_shape _ _ other)
    rw [emission, List.filter_map, hsame, hnumbered.filter_id hshape, List.map_singleton]
  rw [Emission.blocksOf, hfilter, List.flatMap_singleton, emitShape_blocks]

/-- A shape is left out exactly if one of its layouts is missing. -/
theorem mem_skipped_iff {reason : AnalysisError} :
    (shape.id, reason) ∈ (registry.emission limit).report.skipped ↔
      (registry.layoutsOf shape).failure = some reason := by
  constructor
  · intro hskipped
    obtain ⟨other, hother, hid, hfailure⟩ := exists_of_skipped hskipped
    obtain rfl := hnumbered.eq_of_id_eq hother hshape hid
    exact hfailure
  · intro hfailure
    rw [report_skipped, List.mem_filterMap]
    exact ⟨shape, hshape, by rw [hfailure]; rfl⟩

/-- A shape is cut off under a tag exactly if a layout for that tag has too many bindings. -/
theorem mem_truncated_iff {tag : String} :
    (shape.id, tag) ∈ (registry.emission limit).report.truncated ↔
      ∃ layout ∈ (registry.layoutsOf shape).found, limit < rateOf layout.nodes ∧
        layout.tag = tag := by
  constructor
  · intro hcut
    obtain ⟨other, hother, hid, hlayout⟩ := exists_of_truncated hcut
    obtain rfl := hnumbered.eq_of_id_eq hother hshape hid
    exact hlayout
  · rintro ⟨layout, hfound, hmany, rfl⟩
    rw [report_truncated, List.mem_flatMap]
    exact ⟨shape, hshape, List.mem_map_of_mem (List.mem_map_of_mem
      (List.mem_filter.mpr ⟨hfound, decide_eq_true hmany⟩))⟩

end Registry.Numbered

end PegTemplates
