import PegTemplates.Proofs.Emitting.Labels
import PegTemplates.RegistryView

/-!
# Tags shown and tags written

The view of a registry and its emission look for the tags of a shape on their own. The view shows
the tags found, or the error met among them; emission also leaves out a shape with an undefined
reference of its own or behind one of its alternatives, and writes a shape without tags under its
name. So a shape shown with an error is left out, and the tags under which a shape that is not
left out has blocks are those shown, or its name alone where none is shown.
-/

namespace PegTemplates

/-- The tags that a shape is written under by what is shown of it: the tags shown if there is one,
otherwise its name if it has one. -/
def ShapeView.writtenTags (view : ShapeView) : List String :=
  match view.tags with
  | [] => view.name.toList
  | tags => tags

namespace Registry

variable {registry : Registry} {shape : Shape}

/-- A shape is shown with the tags of its alternatives. -/
theorem viewShape_of_ok {alternatives : List TagAlternative}
    (hfound : registry.tagAlternatives shape.elements = .ok alternatives) :
    registry.viewShape shape = ⟨shape.id, shape.name, displaySequence shape.elements,
      alternatives.map (·.tag), none⟩ := by
  rw [viewShape, tagNames, hfound]
  rfl

/-- A shape of which the tags cannot be found has no alternatives to be written under. -/
theorem exists_failure_of_error {reason : AnalysisError}
    (hmissing : registry.tagAlternatives shape.elements = .error reason) :
    ∃ failure, (registry.layoutsOf shape).failure = some failure := by
  rw [layoutsOf, written, hmissing]
  cases registry.firstUndefined? shape.elements with
  | some own => exact ⟨own, rfl⟩
  | none => exact ⟨reason, rfl⟩

/-- A shape is written under the tags that are shown, or under its name. -/
theorem viewShape_of_written {alternatives : List TagAlternative}
    (hwritten : registry.written shape = .ok alternatives) :
    (registry.viewShape shape).error = none ∧
      (registry.viewShape shape).writtenTags = alternatives.map (·.tag) := by
  unfold written at hwritten
  split at hwritten
  · cases hwritten
  · split at hwritten
    · rename_i hfound
      obtain rfl := Except.ok.inj hwritten
      rw [viewShape_of_ok hfound, Shape.fallback, ShapeView.writtenTags]
      cases shape.name <;> exact ⟨rfl, rfl⟩
    · rename_i hsome
      rw [viewShape_of_ok hwritten, ShapeView.writtenTags]
      cases alternatives with
      | nil => exact absurd hwritten hsome
      | cons alternative rest => exact ⟨rfl, rfl⟩

/-- A shape whose layouts are all there has alternatives to be written under. -/
theorem exists_written_of_complete (hcomplete : (registry.layoutsOf shape).failure = none) :
    ∃ alternatives, registry.written shape = .ok alternatives := by
  unfold layoutsOf at hcomplete
  split at hcomplete
  · cases hcomplete
  · rename_i alternatives hwritten
    exact ⟨alternatives, hwritten⟩

/-- What is shown of a shape and what is written of it agree. A shape that is shown with an error
is left out. A shape that is not left out is shown without one, and the tags under which it has a
block are those that the view says. -/
theorem Recorded.view_agrees (hrecorded : registry.Recorded) {limit : Nat} (hlimit : 1 ≤ limit)
    {id : ShapeId} {view : ShapeView} (hview : registry.view.shapes[id]? = some view) :
    (view.error ≠ none → ∃ reason, (id, reason) ∈ (registry.emission limit).report.skipped) ∧
    ((∀ reason, (id, reason) ∉ (registry.emission limit).report.skipped) →
      view.error = none ∧ ∀ tag,
        (∃ block ∈ (registry.emission limit).blocksOf id, block.tag = tag) ↔
          tag ∈ view.writtenTags) := by
  have hnumbered := hrecorded.numbered
  rw [Registry.view, List.getElem?_map] at hview
  obtain ⟨shape, hposition, rfl⟩ := Option.map_eq_some_iff.mp hview
  obtain rfl := hnumbered.id_of_shape? hposition
  have hshape : shape ∈ registry.shapes := List.mem_of_getElem? hposition
  constructor
  · intro herror
    cases hfound : registry.tagAlternatives shape.elements with
    | ok alternatives =>
      rw [viewShape_of_ok hfound] at herror
      exact absurd rfl herror
    | error reason =>
      obtain ⟨failure, hfailure⟩ := exists_failure_of_error hfound
      exact ⟨failure, (hnumbered.mem_skipped_iff hshape limit).mpr hfailure⟩
  · intro hkept
    have hcomplete : (registry.layoutsOf shape).failure = none :=
      Option.eq_none_iff_forall_ne_some.mpr fun reason hfailure =>
        hkept reason ((hnumbered.mem_skipped_iff hshape limit).mpr hfailure)
    obtain ⟨alternatives, hwritten⟩ := exists_written_of_complete hcomplete
    obtain ⟨herror, hshown⟩ := viewShape_of_written hwritten
    refine ⟨herror, fun tag => ?_⟩
    rw [hshown]
    constructor
    · rintro ⟨block, hblock, rfl⟩
      -- a block stands under the tag of a layout, and these are the tags of the alternatives
      rw [hnumbered.blocksOf_eq hshape, List.mem_flatMap] at hblock
      obtain ⟨layout, hlayout, hblock⟩ := hblock
      rw [ShapeLayouts.kept, hcomplete] at hlayout
      have hlayouts : registry.layoutsOf shape = registry.layouts alternatives := by
        rw [layoutsOf, hwritten]
      rw [TagLayout.tag_of_mem_blocks hblock, ← tags_found (hlayouts ▸ hcomplete), ← hlayouts]
      exact List.mem_map_of_mem hlayout
    · exact fun htag => (hnumbered.exists_block_iff hshape hlimit hwritten htag).mpr hkept

/-- Of three shapes one is shown and written with two tags, one has no tag but a name, and one is
shown with an error and left out. -/
theorem view_agrees_three_ways :
    let registry : Registry := (((Registry.empty.register [.choice [[.tag "A"], [.tag "B"]]]
      none).register [.byte 97] none).registerRule "word" [.captured 1]).register
        [.tag "C", .nonTerminal "missing" ⟨0⟩] none
    registry.Recorded ∧ 1 ≤ 1 ∧
    registry.view.shapes = [⟨0, none, "( #A / #B )", ["A", "B"], none⟩,
      ⟨1, some "word", "a", [], none⟩,
      ⟨2, none, "#C [missing]", [], some "reference to undefined rule `missing`"⟩] ∧
    (∀ tag, (∃ block ∈ (registry.emission 1).blocksOf 0, block.tag = tag) ↔ tag ∈ ["A", "B"]) ∧
    (∀ tag, (∃ block ∈ (registry.emission 1).blocksOf 1, block.tag = tag) ↔ tag ∈ ["word"]) ∧
    ∃ reason, (2, reason) ∈ (registry.emission 1).report.skipped := by
  intro registry
  have hrecorded : registry.Recorded :=
    .register _ _ (.registerRule _ _ (.register _ _ (.register _ _ .empty)))
  have hview : registry.view.shapes = [⟨0, none, "( #A / #B )", ["A", "B"], none⟩,
      ⟨1, some "word", "a", [], none⟩,
      ⟨2, none, "#C [missing]", [], some "reference to undefined rule `missing`"⟩] := by
    decide +kernel
  have hskipped : (registry.emission 1).report.skipped = [(2, .undefinedRule "missing")] := by
    rw [report_skipped]
    rfl
  have hfirst := hrecorded.view_agrees (Nat.le_refl 1) (congrArg (·[0]?) hview)
  have hnext := hrecorded.view_agrees (Nat.le_refl 1) (congrArg (·[1]?) hview)
  have hlast := hrecorded.view_agrees (Nat.le_refl 1) (congrArg (·[2]?) hview)
  refine ⟨hrecorded, Nat.le_refl 1, hview, (hfirst.2 ?_).2, (hnext.2 ?_).2, hlast.1 nofun⟩
  · rw [hskipped]
    simp
  · rw [hskipped]
    simp

end Registry

end PegTemplates
