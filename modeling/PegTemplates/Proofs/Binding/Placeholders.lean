import PegTemplates.Proofs.Binding.LinkReadings

/-!
# Label entries and placeholders

What an index makes of the links of a layout decides both the label entries and the placeholders
of its binding. So these correspond one to one wherever every link reaches a capture, and a link
that reaches none has a placeholder alone.
-/

namespace PegTemplates

/-- Links that all reach captures have the placeholders of those that are bound. -/
theorem places_eq_of_reached {readings : List LinkReading}
    (hsound : ∀ reading ∈ readings, reading.Sound)
    (hreached : ∀ target ∈ readings.map LinkReading.target, target.inners ≠ []) :
    readings.filterMap LinkReading.place? =
      (readings.filterMap LinkReading.bound?).map BoundLink.placeholder := by
  rw [List.map_filterMap]
  apply List.filterMap_congr
  intro reading hreading
  cases reading with
  | passed target => rfl
  | unbound target repeated =>
    exact absurd (hsound _ hreading) (hreached target (List.mem_map_of_mem hreading))
  | bound target repeated position => rfl

/-- The label entries and the placeholders of a binding correspond one to one. Each link of the
layout, in order, is passed over or read. A link that is read has a placeholder, which is marked
as repeated exactly if it stands inside a loop. If the link is bound to a capture, it has a label
entry as well, and both belong to the same way of reaching the capture: the entry has the tags of
the capture, and the placeholder the text around it. A link that reaches no capture has neither
an entry nor a text. What becomes of the links does not depend on the tags. -/
theorem labels_match_placeholders (tags : TagTable) {nodes : List Node} {index : Nat}
    (hindex : index < rateOf nodes) :
    (linkReadingsAt nodes index).map LinkReading.target = linksOf nodes ∧
      (∀ reading ∈ linkReadingsAt nodes index, reading.Sound) ∧
      ∃ binding, resolve tags nodes index = some binding ∧
        placeholdersOf false binding.layout =
          (linkReadingsAt nodes index).filterMap LinkReading.place? ∧
        binding.labels =
          ((linkReadingsAt nodes index).filterMap LinkReading.bound?).map (BoundLink.entry tags) ∧
        ((∀ target ∈ linksOf nodes, target.inners ≠ []) →
          binding.labels.length = (placeholdersOf false binding.layout).length ∧
          ∀ (position : Nat) (place : Placeholder),
            (placeholdersOf false binding.layout)[position]? = some place →
            ∃ inner,
              ((linkReadingsAt nodes index).filterMap LinkReading.bound?)[position]? =
                some ⟨place.label, place.looped, inner⟩ ∧
              binding.labels[position]? =
                some (BoundLink.entry tags ⟨place.label, place.looped, inner⟩) ∧
              place.before = inner.before ∧ place.after = inner.after) := by
  have hlists := lists_linkReadingsAt tags hindex
  have htargets := targets_linkReadingsAt nodes index
  refine ⟨htargets, hlists.sound, _, if_pos hindex, hlists.places, hlists.labels,
    fun hreached => ?_⟩
  rw [← htargets] at hreached
  have hplaces := hlists.places.trans (places_eq_of_reached hlists.sound hreached)
  dsimp only
  constructor
  · rw [hplaces, hlists.labels, List.length_map, List.length_map]
  · intro position place hplace
    rw [hplaces, List.getElem?_map] at hplace
    obtain ⟨bound, hbound, rfl⟩ := Option.map_eq_some_iff.mp hplace
    refine ⟨bound.inner, hbound, ?_, rfl, rfl⟩
    rw [hlists.labels, List.getElem?_map, hbound]
    rfl

/-- A link stands in front of a repetition around a choice, of which the branch with a link is
read. -/
theorem labels_match_placeholders_in_loop :
    let nodes : List Node := [.link ⟨some "head", [.ofCapture 0]⟩,
      .zeroOrMore [.choice [[.text 44], [.link ⟨none, [.ofCapture 0, ⟨some 1, "<", ">"⟩]⟩]]]]
    let tags : TagTable := [["Sum"], ["Number", "Name"]]
    1 < rateOf nodes ∧ (∀ target ∈ linksOf nodes, target.inners ≠ []) ∧
    ∃ binding, resolve tags nodes 1 = some binding ∧
      binding.labels = ["head: #Sum", "unlabeled[]: #Number / #Name"] ∧
      placeholdersOf false binding.layout =
        [⟨some "head", "", "", false⟩, ⟨none, "<", ">", true⟩] ∧
      binding.labels.length = (placeholdersOf false binding.layout).length := by
  intro nodes tags
  have hindex : 1 < rateOf nodes := by decide
  have hreached : ∀ target ∈ linksOf nodes, target.inners ≠ [] := by decide
  obtain ⟨_, _, binding, hresolve, _, _, hsame⟩ := labels_match_placeholders tags hindex
  refine ⟨hindex, hreached, binding, hresolve, ?_, ?_, (hsame hreached).1⟩
  · cases hresolve
    decide +kernel
  · cases hresolve
    decide +kernel

end PegTemplates
