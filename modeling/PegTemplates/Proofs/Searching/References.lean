import PegTemplates.Proofs.Searching.Cursor

/-!
# References behind a search

The sequence specialized for a tag is put together from parts of the sequence searched and of
the bodies of rules that can be met from it. So no reference can be met from it that could not
be met before, in links as well as outside of them. The search for all tags of a sequence is
shown to fail for nothing but an undefined rule that can be met, and what it gives are sequences
with the way to a tag fixed.
-/

namespace PegTemplates

namespace Registry

/-- The references that can be met from a sequence if links are looked into as well. -/
inductive Refers (registry : Registry) (elements : List Element) : Reference → Prop where
  /-- A reference of the sequence itself. -/
  | own {reference : Reference} : reference ∈ mentionsOf true elements →
    Refers registry elements reference
  /-- A reference in the body of the rule that another one refers to. -/
  | inner {outer reference : Reference} {body : RuleBody} : Refers registry elements outer →
    registry.body? outer.name = some body → reference ∈ mentionsOf true body.elements →
    Refers registry elements reference

/-- Whether a reason is that a rule is undefined, and a reference to it can be met. -/
def Blames (registry : Registry) (elements : List Element) (reason : AnalysisError) : Prop :=
  ∃ reference, registry.Refers elements reference ∧ registry.body? reference.name = none ∧
    reason = .undefinedRule reference.name

variable {registry : Registry} {elements others : List Element} {reference : Reference}

/-- What can be met from a part can be met from where its references can. -/
theorem Refers.trans (hinner : ∀ inner ∈ mentionsOf true elements, registry.Refers others inner)
    (hrefers : registry.Refers elements reference) : registry.Refers others reference := by
  induction hrefers with
  | own hmentioned => exact hinner _ hmentioned
  | inner _ hbody hmentioned ih => exact ih.inner hbody hmentioned

/-- What can be met outside of links can be met. -/
theorem Reaches.refers (hreaches : registry.Reaches elements reference) :
    registry.Refers elements reference := by
  induction hreaches with
  | own hmentioned => exact .own (mentionsOf_subset _ hmentioned)
  | inner _ hbody hmentioned ih => exact ih.inner hbody (mentionsOf_subset _ hmentioned)

/-- Where the way to a tag is fixed nothing can be met that could not be met before. -/
theorem Fixes.refers {found : TagAlternative} (hfixes : registry.Fixes elements found)
    (hrefers : registry.Refers found.elements reference) : registry.Refers elements reference := by
  refine hrefers.trans ?_
  clear hrefers
  induction hfixes with
  | tag => exact fun _ hmentioned => nomatch hmentioned
  | @choice branches branch found hbranch _ ih =>
    refine fun inner hinner => (ih inner hinner).trans fun other hother => .own ?_
    obtain ⟨before, behind, rfl⟩ := List.append_of_mem hbranch
    simp [mentionsOf, Element.mentions, mentionsOfBranches_eq, hother]
  | optional _ ih =>
    exact fun inner hinner =>
      (ih inner hinner).trans fun _ hother => .own (List.mem_append_left _ hother)
  | zeroOrMore _ ih | oneOrMore _ ih =>
    intro inner hinner
    rw [mentionsOf, mentionsOf, List.append_nil] at hinner
    exact (ih inner hinner).trans fun _ hother => .own (List.mem_append_left _ hother)
  | @nonTerminal name site body found hbody _ ih =>
    have hown : registry.Refers [.nonTerminal name site] ⟨name, site⟩ := .own List.mem_cons_self
    exact fun inner hinner => (ih inner hinner).trans fun _ hother => hown.inner hbody hother
  | first _ ih =>
    intro inner hinner
    rw [mentionsOf_append] at hinner
    rcases List.mem_append.mp hinner with hfound | hrest
    · refine (ih inner hfound).trans fun other hother => .own ?_
      rw [mentionsOf, mentionsOf, List.append_nil] at hother
      exact List.mem_append_left _ hother
    · exact .own (List.mem_append_right _ hrest)
  | later _ ih =>
    intro inner hinner
    rcases List.mem_append.mp hinner with hfirst | hfound
    · exact .own (List.mem_append_left _ hfirst)
    · exact (ih inner hfound).trans fun _ hother => .own (List.mem_append_right _ hother)

end Registry

namespace TagCursor

variable {registry : Registry}

/-- What is handed out behind the first call is handed out by the cursor behind it. -/
theorem item_succ (cursor : TagCursor) (calls : Nat) :
    cursor.item registry (calls + 1) = (cursor.next registry).2.item registry calls := by
  have hafter : cursor.after registry (calls + 1) =
      (cursor.next registry).2.after registry calls := by
    induction calls with
    | zero => rfl
    | succ calls ih => rw [after, ih, after]
  rw [item, hafter, item]

/-- What a cursor hands out in some calls it hands out in one of them. -/
theorem mem_take {item : Except AnalysisError TagAlternative} {calls : Nat} {cursor : TagCursor}
    (hitem : item ∈ cursor.take registry calls) :
    ∃ call, cursor.item registry call = some item := by
  induction calls generalizing cursor with
  | zero => cases hitem
  | succ calls ih =>
    unfold take at hitem
    split at hitem
    · cases hitem
    · rename_i first rest hnext
      rcases List.mem_cons.mp hitem with rfl | hlater
      · refine ⟨0, ?_⟩
        rw [TagCursor.item, TagCursor.after, hnext]
      · obtain ⟨call, hcall⟩ := ih hlater
        refine ⟨call + 1, ?_⟩
        rw [item_succ, hnext]
        exact hcall

/-- A cursor reports nothing but an undefined rule that can be met. -/
theorem item_undefined {elements : List Element} {calls : Nat} {reason : AnalysisError}
    (hitem : (start elements).item registry calls = some (.error reason)) :
    ∃ reference, registry.Reaches elements reference ∧ registry.body? reference.name = none ∧
      reason = .undefinedRule reference.name := by
  have hreported : .error reason ∈ (registry.tour Reference.name [] elements).items := by
    have hposition := item_eq registry elements calls
    rw [hitem] at hposition
    exact List.mem_of_getElem? hposition.symm
  rcases List.mem_append.mp hreported with htag | hstopped
  · obtain ⟨tag, _, hsame⟩ := List.mem_map.mp htag
    cases hsame
  · obtain ⟨name, hname, hsame⟩ := List.mem_map.mp hstopped
    obtain ⟨hbody, reference, hreaches, rfl⟩ :=
      (registry.tour_staysWithin Reference.name [] elements).stopped name
        (Option.mem_toList.mp hname)
    exact ⟨reference, hreaches, hbody, (Except.error.inj hsame).symm⟩

end TagCursor

section Collecting

variable {ε α : Type} {items : List (Except ε α)}

/-- Results are collected if all of them are there. -/
theorem eq_map_of_mapM_id {found : List α} (hcollect : items.mapM id = .ok found) :
    items = found.map .ok := by
  induction items generalizing found with
  | nil =>
    cases hcollect
    rfl
  | cons item rest ih =>
    rw [List.mapM_cons] at hcollect
    cases item with
    | error reason => cases hcollect
    | ok value =>
      cases hrest : rest.mapM id with
      | error reason =>
        rw [hrest] at hcollect
        cases hcollect
      | ok later =>
        rw [hrest] at hcollect
        cases hcollect
        rw [ih hrest, List.map_cons]

/-- Results are not collected only because of one of them. -/
theorem mem_of_mapM_id {reason : ε} (hcollect : items.mapM id = .error reason) :
    .error reason ∈ items := by
  induction items with
  | nil => cases hcollect
  | cons item rest ih =>
    rw [List.mapM_cons] at hcollect
    cases item with
    | error other =>
      cases hcollect
      exact List.mem_cons_self
    | ok value =>
      cases hrest : rest.mapM id with
      | error other =>
        rw [hrest] at hcollect
        cases hcollect
        exact List.mem_cons_of_mem _ (ih hrest)
      | ok later =>
        rw [hrest] at hcollect
        cases hcollect

end Collecting

namespace Registry

variable {registry : Registry} {elements : List Element}

/-- Every tag alternative is the sequence with the way to one of its tags fixed. -/
theorem fixes_of_tagAlternatives {found : List TagAlternative}
    (halternatives : registry.tagAlternatives elements = .ok found) :
    ∀ alternative ∈ found, registry.Fixes elements alternative := by
  intro alternative hfound
  have hitem : .ok alternative ∈ registry.alternatives elements := by
    rw [eq_map_of_mapM_id halternatives]
    exact List.mem_map_of_mem hfound
  obtain ⟨call, hcall⟩ := TagCursor.mem_take hitem
  exact TagCursor.item_fixes registry elements hcall

/-- The tag alternatives cannot be found only because of an undefined rule that can be met. -/
theorem blames_of_tagAlternatives {reason : AnalysisError}
    (halternatives : registry.tagAlternatives elements = .error reason) :
    registry.Blames elements reason := by
  obtain ⟨call, hcall⟩ := TagCursor.mem_take (mem_of_mapM_id halternatives)
  obtain ⟨reference, hreaches, hundefined⟩ := TagCursor.item_undefined hcall
  exact ⟨reference, hreaches.refers, hundefined⟩

end Registry

end PegTemplates
