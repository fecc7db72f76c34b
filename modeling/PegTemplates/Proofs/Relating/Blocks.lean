import PegTemplates.Proofs.Emitting.LeftOut
import PegTemplates.Proofs.Relating.Layouts
import PegTemplates.Proofs.Relating.Searches

/-!
# Blocks under new numbers

Of the numbers in a layout only those of captures are read, and these to look up tags. So a
layout under new numbers has the same bindings, and the same blocks if the tags of the shapes
are the same. A registry that holds all shapes of another one under their new numbers has the
same tags for them. Shape by shape it is shown to write the same blocks, or to leave the shape
out for the same reason, and to cut off the same tags.
-/

namespace PegTemplates

section Rates

variable (numbers : Renumbering)

mutual

/-- A node holds a link under new numbers as before. -/
theorem Node.hasLinks_renumber : ∀ node : Node,
    (node.renumber numbers).hasLinks = node.hasLinks
  | .text _ | .link _ => rfl
  | .choice branches => anyHasLinks_renumber branches
  | .optional body | .zeroOrMore body | .oneOrMore body => hasLinks_renumber body

/-- A layout holds a link under new numbers as before. -/
theorem hasLinks_renumber : ∀ nodes : List Node,
    hasLinks (Node.renumberEach numbers nodes) = hasLinks nodes
  | [] => rfl
  | node :: rest => by
    rw [Node.renumberEach, hasLinks, hasLinks, Node.hasLinks_renumber node, hasLinks_renumber rest]

/-- Branches hold a link under new numbers as before. -/
theorem anyHasLinks_renumber : ∀ branches : List (List Node),
    anyHasLinks (Node.renumberBranches numbers branches) = anyHasLinks branches
  | [] => rfl
  | branch :: rest => by
    rw [Node.renumberBranches, anyHasLinks, anyHasLinks, hasLinks_renumber branch,
      anyHasLinks_renumber rest]

end

/-- Branches are without a link under new numbers as before. -/
theorem hasUnlinked_renumber (branches : List (List Node)) :
    hasUnlinked (Node.renumberBranches numbers branches) = hasUnlinked branches := by
  induction branches with
  | nil => rfl
  | cons branch rest ih =>
    rw [Node.renumberBranches, hasUnlinked, hasUnlinked, hasLinks_renumber, ih]

mutual

/-- A node has as many bindings under new numbers. -/
theorem Node.rate_renumber : ∀ node : Node, (node.renumber numbers).rate = node.rate
  | .text _ => rfl
  | .link target => by
    rw [Node.renumber, Node.rate, Node.rate, Link.renumber, List.length_map]
  | .choice branches => by
    rw [Node.renumber, Node.rate, Node.rate, linkedRate_renumber branches,
      hasUnlinked_renumber]
  | .optional body | .zeroOrMore body => by
    rw [Node.renumber, Node.rate, Node.rate, hasLinks_renumber, rateOf_renumber body]
  | .oneOrMore body => rateOf_renumber body

/-- A layout has as many bindings under new numbers. -/
theorem rateOf_renumber : ∀ nodes : List Node,
    rateOf (Node.renumberEach numbers nodes) = rateOf nodes
  | [] => rfl
  | node :: rest => by
    rw [Node.renumberEach, rateOf, rateOf, Node.rate_renumber node, rateOf_renumber rest]

/-- Branches with a link have as many bindings under new numbers. -/
theorem linkedRate_renumber : ∀ branches : List (List Node),
    linkedRate (Node.renumberBranches numbers branches) = linkedRate branches
  | [] => rfl
  | branch :: rest => by
    rw [Node.renumberBranches, linkedRate, linkedRate, hasLinks_renumber, rateOf_renumber branch,
      linkedRate_renumber rest]

end

end Rates

section Resolved

variable {numbers : Renumbering} {tags others : TagTable}

/-- A link has the same label entry if the shape it is bound to has the same tags. -/
theorem labelEntry_renumber (htags : ∀ id, others[numbers.capture id]? = tags[id]?)
    (repeated : Bool) (label : Option String) (inner : LinkedInner) :
    labelEntry others repeated label (inner.renumber numbers) =
      labelEntry tags repeated label inner := by
  have hfound : ((inner.renumber numbers).capture.bind fun id => others[id]?) =
      inner.capture.bind fun id => tags[id]? := by
    rw [LinkedInner.renumber, Option.bind_map]
    exact Option.bind_congr fun id _ => htags id
  rw [labelEntry, labelEntry, hfound]

/-- A link resolves to the same if the shapes have the same tags. -/
theorem Link.resolve_renumber (htags : ∀ id, others[numbers.capture id]? = tags[id]?)
    (repeated : Bool) (target : Link) (digit : Nat) :
    (target.renumber numbers).resolve others repeated digit =
      target.resolve tags repeated digit := by
  rw [Link.resolve, Link.resolve, Link.renumber, List.getElem?_map]
  cases target.inners[digit]? with
  | none => rfl
  | some inner =>
    dsimp only [Option.map_some]
    rw [labelEntry_renumber htags]
    rfl

mutual

/-- A node resolves to the same if the shapes have the same tags. -/
theorem Node.resolve_renumber (htags : ∀ id, others[numbers.capture id]? = tags[id]?) :
    ∀ (node : Node) (repeated : Bool) (digit : Nat),
      (node.renumber numbers).resolve others repeated digit = node.resolve tags repeated digit
  | .text _, _, _ => rfl
  | .link target, repeated, digit => target.resolve_renumber htags repeated digit
  | .choice branches, repeated, digit => resolveBranches_renumber htags branches repeated digit
  | .optional body, repeated, digit => by
    have hrate := (Node.optional body).rate_renumber numbers
    rw [Node.renumber] at hrate ⊢
    rw [Node.resolve, Node.resolve, hrate, resolveLayout_renumber htags body]
  | .zeroOrMore body, repeated, digit => by
    have hrate := (Node.zeroOrMore body).rate_renumber numbers
    rw [Node.renumber] at hrate ⊢
    rw [Node.resolve, Node.resolve, hrate, resolveLayout_renumber htags body]
  | .oneOrMore body, _, digit => congrArg Resolved.looped (resolveLayout_renumber htags body _ _)

/-- A layout resolves to the same if the shapes have the same tags. -/
theorem resolveLayout_renumber (htags : ∀ id, others[numbers.capture id]? = tags[id]?) :
    ∀ (nodes : List Node) (repeated : Bool) (index : Nat),
      resolveLayout others repeated index (Node.renumberEach numbers nodes) =
        resolveLayout tags repeated index nodes
  | [], _, _ => rfl
  | node :: rest, repeated, index => by
    rw [Node.renumberEach, resolveLayout, resolveLayout, Node.rate_renumber,
      Node.resolve_renumber htags node, resolveLayout_renumber htags rest]

/-- Branches resolve to the same if the shapes have the same tags. -/
theorem resolveBranches_renumber (htags : ∀ id, others[numbers.capture id]? = tags[id]?) :
    ∀ (branches : List (List Node)) (repeated : Bool) (digit : Nat),
      resolveBranches others repeated digit (Node.renumberBranches numbers branches) =
        resolveBranches tags repeated digit branches
  | [], _, _ => rfl
  | branch :: rest, repeated, digit => by
    rw [Node.renumberBranches, resolveBranches, resolveBranches, hasLinks_renumber, rateOf_renumber,
      resolveLayout_renumber htags branch, resolveBranches_renumber htags rest,
      resolveBranches_renumber htags rest]

end

/-- A tag with its layout under new numbers. -/
def TagLayout.renumber (numbers : Renumbering) (layout : TagLayout) : TagLayout :=
  ⟨layout.tag, Node.renumberEach numbers layout.nodes⟩

/-- A layout has the same blocks if the shapes have the same tags. -/
theorem TagLayout.blocks_renumber (htags : ∀ id, others[numbers.capture id]? = tags[id]?)
    (named : Bool) (limit : Nat) (layout : TagLayout) :
    (layout.renumber numbers).blocks others named limit = layout.blocks tags named limit := by
  have hblock : (layout.renumber numbers).block others named = layout.block tags named := by
    funext index
    rw [block, block, renumber, resolveLayout_renumber htags]
  rw [blocks, blocks, hblock, looked, looked, renumber, rateOf_renumber]

/-- The layouts of a shape under new numbers. -/
def ShapeLayouts.renumber (numbers : Renumbering) (layouts : ShapeLayouts) : ShapeLayouts :=
  ⟨layouts.found.map (·.renumber numbers), layouts.failure⟩

/-- The same tags have too many bindings. -/
theorem ShapeLayouts.truncated_renumber (limit : Nat) (layouts : ShapeLayouts) :
    (layouts.renumber numbers).truncated limit = layouts.truncated limit := by
  have hrate : (fun layout => decide (limit < rateOf (TagLayout.nodes layout))) ∘
      TagLayout.renumber numbers = fun layout => decide (limit < rateOf layout.nodes) := by
    funext layout
    rw [Function.comp_apply, TagLayout.renumber, rateOf_renumber]
  rw [truncated, truncated, renumber, List.filter_map, hrate, List.map_map]
  rfl

/-- The layouts give the same blocks if the shapes have the same tags. -/
theorem ShapeLayouts.blocks_renumber (htags : ∀ id, others[numbers.capture id]? = tags[id]?)
    (named : Bool) (limit : Nat) (layouts : ShapeLayouts) :
    (layouts.renumber numbers).kept.flatMap (·.blocks others named limit) =
      layouts.kept.flatMap (·.blocks tags named limit) := by
  rw [kept, kept, renumber]
  cases layouts.failure with
  | some reason => rfl
  | none =>
    dsimp only
    rw [List.flatMap_map]
    exact List.flatMap_congr fun layout _ => layout.blocks_renumber htags named limit

end Resolved

/-- Whether a registry holds all that another one holds, shapes as well, under new numbers. -/
structure Registry.Holds (numbers : Renumbering) (known : Reference → Prop)
    (registry other : Registry) : Prop extends registry.Embeds numbers known other where
  /-- The shape under a new number is the shape of the old one. -/
  shape? : ∀ id, other.shape? (numbers.capture id) =
    (registry.shape? id).map (·.renumber numbers)
  /-- Shapes hold no other references than such ones. -/
  shapes : ∀ shape ∈ registry.shapes, RefersTo known shape.elements

namespace Registry

variable {numbers : Renumbering} {known : Reference → Prop} {registry other : Registry}

/-- A shape is written under the same alternatives, or kept from that by the same undefined
rule. -/
theorem Embeds.written_renumber (hembeds : registry.Embeds numbers known other) {shape : Shape}
    (hknown : RefersTo known shape.elements) : other.written (shape.renumber numbers) =
      (registry.written shape).map (List.map (·.renumber numbers)) := by
  rw [written, written, Shape.renumber, hembeds.firstUndefined?_renumber hknown,
    tagAlternatives_renumber hembeds hknown]
  cases registry.firstUndefined? shape.elements with
  | some reason => rfl
  | none =>
    obtain ⟨id, name, elements⟩ := shape
    rcases registry.tagAlternatives elements with reason | ⟨_ | ⟨first, rest⟩⟩
    · rfl
    · cases name <;> rfl
    · rfl

/-- Alternatives have the same layouts. -/
theorem Embeds.layouts_renumber (hembeds : registry.Embeds numbers known other)
    {alternatives : List TagAlternative}
    (hknown : ∀ alternative ∈ alternatives, RefersTo known alternative.elements) :
    other.layouts (alternatives.map (·.renumber numbers)) =
      (registry.layouts alternatives).renumber numbers := by
  induction alternatives with
  | nil => rfl
  | cons alternative rest ih =>
    obtain ⟨hfirst, hrest⟩ := List.forall_mem_cons.mp hknown
    rw [List.map_cons, TagAlternative.renumber, layouts, layouts, layout_renumber hembeds hfirst,
      ih hrest]
    cases registry.layout alternative.elements <;> rfl

/-- A shape is written from the same layouts. -/
theorem Embeds.layoutsOf_renumber (hembeds : registry.Embeds numbers known other) {shape : Shape}
    (hknown : RefersTo known shape.elements) : other.layoutsOf (shape.renumber numbers) =
      (registry.layoutsOf shape).renumber numbers := by
  rw [layoutsOf, layoutsOf, hembeds.written_renumber hknown]
  cases hwritten : registry.written shape with
  | error reason => rfl
  | ok alternatives =>
    exact hembeds.layouts_renumber fun alternative halternative _ hmentioned =>
      hembeds.known_of_refers hknown
        (refers_of_written hwritten halternative (.own hmentioned))

namespace Holds

variable (hholds : registry.Holds numbers known other)

include hholds

/-- A shape has the same tags. -/
theorem tagTable_renumber (id : ShapeId) :
    other.tagTable[numbers.capture id]? = registry.tagTable[id]? := by
  have hshape := hholds.shape? id
  rw [Registry.shape?, Registry.shape?] at hshape
  rw [tagTable, tagTable, List.getElem?_map, List.getElem?_map, hshape, Option.map_map]
  refine Option.map_congr fun shape hmem => ?_
  have hknown := hholds.shapes shape (List.mem_of_getElem? hmem)
  rw [Function.comp_apply, hholds.toEmbeds.written_renumber hknown]
  cases registry.written shape with
  | error reason => rfl
  | ok alternatives =>
    change (alternatives.map (·.renumber numbers)).map _ = _
    rw [List.map_map]
    rfl

variable {shape : Shape} (hshape : shape ∈ registry.shapes)

include hshape

/-- A shape is written from the same layouts. -/
theorem layoutsOf_renumber :
    other.layoutsOf (shape.renumber numbers) = (registry.layoutsOf shape).renumber numbers :=
  hholds.toEmbeds.layoutsOf_renumber (hholds.shapes shape hshape)

/-- Of a shape the same blocks are written. -/
theorem blocks_renumber (limit : Nat) :
    (other.layoutsOf (shape.renumber numbers)).kept.flatMap
        (·.blocks other.tagTable shape.name.isSome limit) =
      (registry.layoutsOf shape).kept.flatMap
        (·.blocks registry.tagTable shape.name.isSome limit) := by
  rw [hholds.layoutsOf_renumber hshape]
  exact ShapeLayouts.blocks_renumber hholds.tagTable_renumber _ limit _

/-- A shape is left out for the same reason. -/
theorem failure_renumber :
    (other.layoutsOf (shape.renumber numbers)).failure = (registry.layoutsOf shape).failure := by
  rw [hholds.layoutsOf_renumber hshape]
  rfl

/-- Under the same tags a shape is cut off. -/
theorem truncated_renumber (limit : Nat) :
    (other.layoutsOf (shape.renumber numbers)).truncated limit =
      (registry.layoutsOf shape).truncated limit := by
  rw [hholds.layoutsOf_renumber hshape]
  exact ShapeLayouts.truncated_renumber limit _

end Holds

end Registry

end PegTemplates
