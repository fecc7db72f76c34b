import Mathlib.Data.List.Perm.Basic
import PegTemplates.Proofs.Following.Tour

/-!
# What a tour reaches

A reference is reachable from a sequence if it stands there, or in the body of
the rule of a reachable one; links are not looked into. A tour is shown to stay
within what is reachable, on any rules. If it does not end at an undefined rule,
it has followed one reference for every reachable key, it has read every leaf of
the sequence, and every leaf of a rule body once for each time it has entered it.
-/

namespace PegTemplates

namespace Registry

/-- The references that can be met from a sequence. -/
inductive Reaches (registry : Registry) (elements : List Element) : Reference → Prop where
  /-- A reference of the sequence itself. -/
  | own {reference : Reference} : reference ∈ mentionsOf false elements →
    Reaches registry elements reference
  /-- A reference in the body of the rule that a reachable one refers to. -/
  | inner {outer reference : Reference} {body : RuleBody} : Reaches registry elements outer →
    registry.body? outer.name = some body → reference ∈ mentionsOf false body.elements →
    Reaches registry elements reference

/-- Leaves of the rule of that name, none if there is no such rule. -/
def ruleLeaves (registry : Registry) (name : String) : List Element :=
  match registry.body? name with
  | some body => leavesOf body.elements
  | none => []

theorem ruleLeaves_of_body? {registry : Registry} {name : String} {body : RuleBody}
    (hbody : registry.body? name = some body) :
    registry.ruleLeaves name = leavesOf body.elements := by
  rw [ruleLeaves, hbody]

/-- The leaves of a sequence itself and of the rules that can be met from it. -/
def Gathers (registry : Registry) (elements : List Element) (leaf : Element) : Prop :=
  leaf ∈ leavesOf elements ∨
    ∃ reference, registry.Reaches elements reference ∧ leaf ∈ registry.ruleLeaves reference.name

variable {registry : Registry} {elements others : List Element} {reference : Reference}

/-- What can be met from a part can be met from where its references can. -/
theorem Reaches.trans (hinner : ∀ inner ∈ mentionsOf false elements, registry.Reaches others inner)
    (hreaches : registry.Reaches elements reference) : registry.Reaches others reference := by
  induction hreaches with
  | own hmentioned => exact hinner _ hmentioned
  | inner _ hbody hmentioned ih => exact ih.inner hbody hmentioned

/-- Only what is mentioned by the sequence or in the body of a rule can be met. -/
theorem Reaches.mentioned (hreaches : registry.Reaches elements reference) :
    reference ∈ mentionsOf false elements ++ registry.ruleMentions false := by
  cases hreaches with
  | own hmentioned => exact List.mem_append_left _ hmentioned
  | inner _ hbody hmentioned =>
    exact List.mem_append_right _ (mem_ruleMentions (mem_rules_of_body? hbody).1 hmentioned)

/-- Every rule that can be met is defined if all that are mentioned are. -/
theorem Reaches.defined (hmentions : ∀ reference ∈ mentionsOf false elements ++
      registry.ruleMentions false, (registry.body? reference.name).isSome)
    (hreaches : registry.Reaches elements reference) :
    ∃ body, registry.body? reference.name = some body :=
  Option.isSome_iff_exists.mp (hmentions reference hreaches.mentioned)

end Registry

/-- Whether a tour has met nothing but what can be met from the sequence. -/
structure Tour.StaysWithin (registry : Registry) (elements : List Element) (tour : Tour) :
    Prop where
  /-- Every leaf can be met. -/
  leaves : ∀ leaf ∈ tour.leaves, registry.Gathers elements leaf
  /-- Every reference can be met. -/
  followed : ∀ reference ∈ tour.followed, registry.Reaches elements reference
  /-- A rule that ended the tour can be met, but is not defined. -/
  stopped : ∀ name, tour.stopped = some name →
    registry.body? name = none ∧ ∃ reference, registry.Reaches elements reference ∧
      reference.name = name

namespace Tour.StaysWithin

variable {registry : Registry} {elements others : List Element} {tour : Tour}

/-- A tour within a part is one within all from which the part can be met. -/
theorem trans (hwithin : tour.StaysWithin registry elements)
    (hmentions : ∀ reference ∈ mentionsOf false elements, registry.Reaches others reference)
    (hleaves : ∀ leaf ∈ leavesOf elements, registry.Gathers others leaf) :
    tour.StaysWithin registry others where
  leaves leaf hleaf := by
    rcases hwithin.leaves leaf hleaf with hown | ⟨reference, hreaches, hrule⟩
    · exact hleaves leaf hown
    · exact Or.inr ⟨reference, hreaches.trans hmentions, hrule⟩
  followed reference hfollowed := (hwithin.followed reference hfollowed).trans hmentions
  stopped name hname := by
    obtain ⟨hbody, reference, hreaches, hreference⟩ := hwithin.stopped name hname
    exact ⟨hbody, reference, hreaches.trans hmentions, hreference⟩

/-- What can be met behind an element can be met from there. -/
theorem behind {rest : List Element} (hwithin : tour.StaysWithin registry rest)
    (element : Element) : tour.StaysWithin registry (element :: rest) :=
  hwithin.trans (fun _ hmentioned => .own (List.mem_append_right _ hmentioned))
    fun _ hleaf => Or.inl (List.mem_append_right _ hleaf)

/-- What can be met from the body of a rule can be met from a reference to it. -/
theorem through {reference : Reference} {body : RuleBody} {rest : List Element}
    (hbody : registry.body? reference.name = some body)
    (hwithin : tour.StaysWithin registry (body.elements ++ rest)) :
    tour.StaysWithin registry (.nonTerminal reference.name reference.site :: rest) := by
  have hfirst : registry.Reaches (.nonTerminal reference.name reference.site :: rest) reference :=
    .own List.mem_cons_self
  refine hwithin.trans ?_ ?_
  · intro other hmentioned
    rw [mentionsOf_append] at hmentioned
    rcases List.mem_append.mp hmentioned with hinside | hrest
    · exact hfirst.inner hbody hinside
    · exact .own (List.mem_append_right _ hrest)
  · intro leaf hleaf
    rw [leavesOf_append] at hleaf
    rcases List.mem_append.mp hleaf with hinside | hrest
    · refine Or.inr ⟨reference, hfirst, ?_⟩
      rwa [Registry.ruleLeaves_of_body? hbody]
    · exact Or.inl (List.mem_append_right _ hrest)

end Tour.StaysWithin

namespace Registry

variable {κ : Type} [DecidableEq κ] (registry : Registry) (key : Reference → κ)

/-- A tour meets nothing but what can be met from its sequence. -/
theorem tour_staysWithin (seen : List κ) (elements : List Element) :
    (registry.tour key seen elements).StaysWithin registry elements := by
  induction seen, elements using tour_induction registry key with
  | nil seen =>
    rw [tour_nil]
    exact ⟨fun _ hleaf => absurd hleaf List.not_mem_nil,
      fun _ hfollowed => absurd hfollowed List.not_mem_nil, fun _ hname => nomatch hname⟩
  | leaf seen element rest hleaf ih =>
    rw [tour_leaf _ _ _ hleaf]
    obtain ⟨hleaves, hfollowed, hstopped⟩ := ih.behind element
    refine ⟨?_, hfollowed, hstopped⟩
    intro leaf hmem
    rcases List.mem_cons.mp hmem with rfl | hrest
    · refine Or.inl (List.mem_append_left _ ?_)
      rw [(Element.of_leaf hleaf).1]
      exact List.mem_singleton_self _
    · exact hleaves leaf hrest
  | inner seen element rest elements hinner ih =>
    rw [tour_inner _ _ _ hinner]
    obtain ⟨hleaves, hmentions⟩ := Element.of_inner hinner
    refine ih.trans ?_ ?_
    · intro reference hmentioned
      refine .own ?_
      rwa [mentionsOf, hmentions, ← mentionsOf_append]
    · intro leaf hleaf
      refine Or.inl ?_
      rwa [leavesOf, hleaves, ← leavesOf_append]
  | again seen element rest reference hrule hseen ih =>
    rw [tour_seen _ _ _ hrule hseen]
    exact ih.behind element
  | follow seen element rest reference hrule hseen body hbody ih =>
    rw [tour_follow _ _ _ hrule hseen hbody]
    obtain rfl := Element.of_rule hrule
    obtain ⟨hleaves, hfollowed, hstopped⟩ := ih.through hbody
    refine ⟨hleaves, ?_, hstopped⟩
    intro other hmem
    rcases List.mem_cons.mp hmem with rfl | hlater
    · exact .own List.mem_cons_self
    · exact hfollowed other hlater
  | stop seen element rest reference hrule hseen hbody =>
    rw [tour_stop _ _ _ hrule hseen hbody]
    refine ⟨fun _ hleaf => absurd hleaf List.not_mem_nil,
      fun _ hfollowed => absurd hfollowed List.not_mem_nil, ?_⟩
    rintro name hname
    obtain rfl := Option.some.inj hname
    obtain rfl := Element.of_rule hrule
    exact ⟨hbody, reference, .own List.mem_cons_self, rfl⟩

/-- A tour follows no key that has been seen, and none twice. -/
theorem tour_nodup (seen : List κ) (elements : List Element) :
    ((registry.tour key seen elements).followed.map key).Nodup ∧
      ∀ found ∈ (registry.tour key seen elements).followed.map key, found ∉ seen := by
  induction seen, elements using tour_induction registry key with
  | nil seen =>
    rw [tour_nil]
    exact ⟨List.nodup_nil, fun _ hfound => absurd hfound List.not_mem_nil⟩
  | leaf seen element rest hleaf ih =>
    rw [tour_leaf _ _ _ hleaf]
    exact ih
  | inner seen element rest elements hinner ih =>
    rw [tour_inner _ _ _ hinner]
    exact ih
  | again seen element rest reference hrule hseen ih =>
    rw [tour_seen _ _ _ hrule hseen]
    exact ih
  | follow seen element rest reference hrule hseen body hbody ih =>
    rw [tour_follow _ _ _ hrule hseen hbody]
    obtain ⟨hnodup, hnew⟩ := ih
    refine ⟨List.nodup_cons.mpr ⟨fun hagain => hnew _ hagain List.mem_cons_self, hnodup⟩, ?_⟩
    intro found hfound
    rcases List.mem_cons.mp hfound with rfl | hlater
    · exact hseen
    · exact fun hbefore => hnew found hlater (List.mem_cons_of_mem _ hbefore)
  | stop seen element rest reference hrule hseen hbody =>
    rw [tour_stop _ _ _ hrule hseen hbody]
    exact ⟨List.nodup_nil, fun _ hfound => absurd hfound List.not_mem_nil⟩

/-- A tour that comes to its end has seen every key in its sequence and in every body
that it has entered. -/
theorem tour_closed (seen : List κ) (elements : List Element)
    (hended : (registry.tour key seen elements).stopped = none) :
    (∀ reference ∈ mentionsOf false elements,
        key reference ∈ (registry.tour key seen elements).seen key seen) ∧
      ∀ outer ∈ (registry.tour key seen elements).followed, ∃ body,
        registry.body? outer.name = some body ∧ ∀ reference ∈ mentionsOf false body.elements,
          key reference ∈ (registry.tour key seen elements).seen key seen := by
  induction seen, elements using tour_induction registry key with
  | nil seen =>
    rw [tour_nil]
    exact ⟨fun _ hmentioned => absurd hmentioned List.not_mem_nil,
      fun _ hfollowed => absurd hfollowed List.not_mem_nil⟩
  | leaf seen element rest hleaf ih =>
    rw [tour_leaf _ _ _ hleaf] at hended ⊢
    rw [mentionsOf, (Element.of_leaf hleaf).2]
    exact ih hended
  | inner seen element rest elements hinner ih =>
    rw [tour_inner _ _ _ hinner] at hended ⊢
    rw [mentionsOf, (Element.of_inner hinner).2, ← mentionsOf_append]
    exact ih hended
  | again seen element rest reference hrule hseen ih =>
    rw [tour_seen _ _ _ hrule hseen] at hended ⊢
    obtain ⟨hown, hbodies⟩ := ih hended
    refine ⟨?_, hbodies⟩
    obtain rfl := Element.of_rule hrule
    intro other hmentioned
    rcases List.mem_cons.mp hmentioned with rfl | hrest
    · exact List.mem_append_right _ hseen
    · exact hown other hrest
  | follow seen element rest reference hrule hseen body hbody ih =>
    rw [tour_follow _ _ _ hrule hseen hbody] at hended ⊢
    rw [Tour.seen_follow]
    obtain ⟨hown, hbodies⟩ := ih hended
    rw [mentionsOf_append] at hown
    obtain rfl := Element.of_rule hrule
    constructor
    · intro other hmentioned
      rcases List.mem_cons.mp hmentioned with rfl | hrest
      · exact List.mem_append_right _ List.mem_cons_self
      · exact hown other (List.mem_append_right _ hrest)
    · intro outer hfollowed
      rcases List.mem_cons.mp hfollowed with rfl | hlater
      · exact ⟨body, hbody, fun inside hinside => hown inside (List.mem_append_left _ hinside)⟩
      · exact hbodies outer hlater
  | stop seen element rest reference hrule hseen hbody =>
    rw [tour_stop _ _ _ hrule hseen hbody] at hended
    cases hended

/-- A tour that comes to its end has read the leaves of its sequence, and those of every
body that it has entered. -/
theorem leaves_perm (seen : List κ) (elements : List Element)
    (hended : (registry.tour key seen elements).stopped = none) :
    (registry.tour key seen elements).leaves.Perm (leavesOf elements ++
      (registry.tour key seen elements).followed.flatMap (registry.ruleLeaves ·.name)) := by
  induction seen, elements using tour_induction registry key with
  | nil seen => rw [tour_nil]; exact .refl _
  | leaf seen element rest hleaf ih =>
    rw [tour_leaf _ _ _ hleaf] at hended ⊢
    rw [leavesOf, (Element.of_leaf hleaf).1]
    exact (ih hended).cons element
  | inner seen element rest elements hinner ih =>
    rw [tour_inner _ _ _ hinner] at hended ⊢
    rw [leavesOf, (Element.of_inner hinner).1, ← leavesOf_append]
    exact ih hended
  | again seen element rest reference hrule hseen ih =>
    rw [tour_seen _ _ _ hrule hseen] at hended ⊢
    obtain rfl := Element.of_rule hrule
    exact ih hended
  | follow seen element rest reference hrule hseen body hbody ih =>
    rw [tour_follow _ _ _ hrule hseen hbody] at hended ⊢
    obtain rfl := Element.of_rule hrule
    have hread := ih hended
    rw [leavesOf_append, List.append_assoc] at hread
    refine hread.trans ?_
    -- the leaves of the body just entered stand in front of those behind the reference
    have hswap := List.perm_append_comm_assoc (leavesOf body.elements) (leavesOf rest)
      ((registry.tour key (key reference :: seen) (body.elements ++ rest)).followed.flatMap
        (registry.ruleLeaves ·.name))
    rw [← ruleLeaves_of_body? hbody] at hswap ⊢
    exact hswap
  | stop seen element rest reference hrule hseen hbody =>
    rw [tour_stop _ _ _ hrule hseen hbody] at hended
    cases hended

/-- A tour that comes to its end has followed a reference for the key of every one that can
be met, if references of one key refer to one rule. -/
theorem key_mem_followed {elements : List Element} {reference : Reference}
    (hkey : ∀ first next, registry.Reaches elements first → registry.Reaches elements next →
      key first = key next → first.name = next.name)
    (hended : (registry.tour key [] elements).stopped = none)
    (hreaches : registry.Reaches elements reference) :
    key reference ∈ (registry.tour key [] elements).followed.map key := by
  obtain ⟨hown, hbodies⟩ := registry.tour_closed key [] elements hended
  have hseen : ∀ found, found ∈ (registry.tour key [] elements).seen key [] →
      found ∈ (registry.tour key [] elements).followed.map key := by
    intro found hfound
    rw [Tour.seen, List.append_nil] at hfound
    exact List.mem_reverse.mp hfound
  induction hreaches with
  | own hmentioned => exact hseen _ (hown _ hmentioned)
  | @inner outer reference body houter hbody hmentioned ih =>
    obtain ⟨entered, hentered, hsame⟩ := List.mem_map.mp ih
    obtain ⟨found, hfound, hinside⟩ := hbodies entered hentered
    have hname := hkey entered outer
      ((registry.tour_staysWithin key [] elements).followed entered hentered) houter hsame
    rw [hname, hbody] at hfound
    obtain rfl := Option.some.inj hfound
    exact hseen _ (hinside reference hmentioned)

/-- A tour comes to its end if every rule that can be met is defined. -/
theorem tour_ended {elements : List Element} (hdefined : ∀ reference,
      registry.Reaches elements reference → ∃ body, registry.body? reference.name = some body) :
    (registry.tour key [] elements).stopped = none := by
  cases hstopped : (registry.tour key [] elements).stopped with
  | none => rfl
  | some name =>
    obtain ⟨hnone, reference, hreaches, rfl⟩ :=
      (registry.tour_staysWithin key [] elements).stopped name hstopped
    obtain ⟨body, hbody⟩ := hdefined reference hreaches
    rw [hnone] at hbody
    cases hbody

end Registry

end PegTemplates
