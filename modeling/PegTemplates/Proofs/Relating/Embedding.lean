import Mathlib.Data.List.Flatten
import Mathlib.Data.List.Perm.Subperm
import PegTemplates.Proofs.Building.Renumbering
import PegTemplates.Proofs.Expanding.Undefined

/-!
# Registries with the same rules under other numbers

A registry may hold all that another one holds, under other numbers and among more. What is
asked of a sequence then comes to the same in both, as long as it refers only to rules that
stand for the same. Here the two registries are related, and what is read off the references
of a sequence is shown to be carried over.
-/

namespace PegTemplates

/-- A reference under new numbers. -/
def Reference.renumber (numbers : Renumbering) (reference : Reference) : Reference :=
  ⟨reference.name, ⟨numbers.site reference.site.index⟩⟩

/-- A site under new numbers. -/
def Site.renumber (numbers : Renumbering) (site : Site) : Site := ⟨numbers.site site.index⟩

/-- A rule body under new numbers. -/
def RuleBody.renumber (numbers : Renumbering) (body : RuleBody) : RuleBody :=
  ⟨body.name, renumberSequence numbers body.elements⟩

section Mentions

variable (numbers : Renumbering) (inLinks : Bool)

mutual

/-- The references in an element get new numbers with it. -/
theorem Element.mentions_renumber : ∀ element : Element,
    (element.renumber numbers).mentions inLinks =
      (element.mentions inLinks).map (·.renumber numbers)
  | .nonTerminal _ _ | .captured _ | .byte _ | .tag _ => rfl
  | .linked _ inner => by
    rw [Element.renumber, Element.mentions, Element.mentions, mentionsOf_renumberEach inner]
    split <;> rfl
  | .choice branches => mentionsOfBranches_renumber branches
  | .zeroOrMore body | .oneOrMore body | .optional body => mentionsOf_renumberEach body

/-- The references in a sequence get new numbers with it. -/
theorem mentionsOf_renumberEach : ∀ elements : List Element,
    mentionsOf inLinks (Element.renumberEach numbers elements) =
      (mentionsOf inLinks elements).map (·.renumber numbers)
  | [] => rfl
  | element :: rest => by
    rw [Element.renumberEach, mentionsOf, mentionsOf, List.map_append,
      Element.mentions_renumber element, mentionsOf_renumberEach rest]

/-- The references in branches get new numbers with them. -/
theorem mentionsOfBranches_renumber : ∀ branches : List (List Element),
    mentionsOfBranches inLinks (Element.renumberBranches numbers branches) =
      (mentionsOfBranches inLinks branches).map (·.renumber numbers)
  | [] => rfl
  | branch :: rest => by
    rw [Element.renumberBranches, mentionsOfBranches, mentionsOfBranches, List.map_append,
      mentionsOf_renumberEach branch, mentionsOfBranches_renumber rest]

end

/-- The references in a sequence get new numbers with it. -/
theorem mentionsOf_renumber (elements : List Element) :
    mentionsOf inLinks (renumberSequence numbers elements) =
      (mentionsOf inLinks elements).map (·.renumber numbers) := by
  rw [← Element.renumberEach_eq, mentionsOf_renumberEach]

end Mentions

/-- Whether all references in a sequence are such ones, in link bodies as well. -/
def RefersTo (known : Reference → Prop) (elements : List Element) : Prop :=
  ∀ reference ∈ mentionsOf true elements, known reference

namespace RefersTo

variable {known : Reference → Prop} {elements others : List Element}

theorem append_iff : RefersTo known (elements ++ others) ↔
    RefersTo known elements ∧ RefersTo known others := by
  rw [RefersTo, mentionsOf_append, List.forall_mem_append]
  rfl

theorem imp {others : Reference → Prop} (himp : ∀ {reference}, known reference → others reference)
    (hknown : RefersTo known elements) : RefersTo others elements :=
  fun reference hreference => himp (hknown reference hreference)

/-- A sequence of an element and others refers to what both do. -/
theorem cons_iff {element : Element} : RefersTo known (element :: elements) ↔
    RefersTo known [element] ∧ RefersTo known elements :=
  @append_iff known [element] elements

/-- An element around a body refers to what the body does. -/
theorem of_body {element : Element} (hbody : element.mentions true = mentionsOf true elements)
    (hknown : RefersTo known [element]) : RefersTo known elements := by
  rw [RefersTo, mentionsOf, mentionsOf, List.append_nil, hbody] at hknown
  exact hknown

/-- A choice refers to what its branches do. -/
theorem of_choice {branches : List (List Element)} (hknown : RefersTo known [.choice branches]) :
    RefersTo known branches.flatten := by
  have hbody : (Element.choice branches).mentions true = mentionsOf true branches.flatten :=
    mentionsOfBranches_eq true branches
  exact hknown.of_body hbody

end RefersTo

/-- Whether a registry stands for the same as another one, under new numbers, as far as these
references are concerned. -/
structure Registry.Embeds (numbers : Renumbering) (known : Reference → Prop)
    (registry other : Registry) : Prop where
  /-- No two shapes get the same number. -/
  capture_injective : Function.Injective numbers.capture
  /-- No two sites get the same number. -/
  site_injective : Function.Injective numbers.site
  /-- The references stand for the same bodies. -/
  body? : ∀ {reference}, known reference →
    other.body? reference.name = (registry.body? reference.name).map (·.renumber numbers)
  /-- There are no other references in bodies of rules. -/
  refers : ∀ body ∈ registry.rules, RefersTo known body.elements
  /-- All bodies are there, perhaps among more. -/
  rules : (registry.rules.map (·.renumber numbers)).Subperm other.rules

namespace Registry.Embeds

variable {numbers : Renumbering} {known : Reference → Prop} {registry other : Registry}
  (hembeds : registry.Embeds numbers known other)

include hembeds

/-- From a sequence with such references no other ones can be met. -/
theorem known_of_refers {elements : List Element} {reference : Reference}
    (hknown : RefersTo known elements) (hrefers : registry.Refers elements reference) :
    known reference := by
  induction hrefers with
  | own hmentioned => exact hknown _ hmentioned
  | inner _ hbody hmentioned _ =>
    exact hembeds.refers _ (mem_rules_of_body? hbody).1 _ hmentioned

/-- A reference is undefined in both registries or in none. -/
theorem undefined?_renumber {reference : Reference} (hknown : known reference) :
    other.undefined? (reference.renumber numbers) = registry.undefined? reference := by
  have hname : (reference.renumber numbers).name = reference.name := rfl
  rw [undefined?, undefined?, hname, hembeds.body? hknown]
  cases registry.body? reference.name <;> rfl

/-- The first undefined name in a sequence is the same. -/
theorem firstUndefined?_renumber {elements : List Element} (hknown : RefersTo known elements) :
    other.firstUndefined? (renumberSequence numbers elements) =
      registry.firstUndefined? elements := by
  rw [firstUndefined?_eq, firstUndefined?_eq, mentionsOf_renumber, List.findSome?_map]
  have hsame : ∀ references : List Reference, (∀ reference ∈ references, known reference) →
      references.findSome? (other.undefined? ∘ (·.renumber numbers)) =
        references.findSome? registry.undefined? := by
    intro references
    induction references with
    | nil => exact fun _ => rfl
    | cons reference rest ih =>
      intro hall
      obtain ⟨hfirst, hrest⟩ := List.forall_mem_cons.mp hall
      rw [List.findSome?_cons, List.findSome?_cons, ih hrest, Function.comp_apply,
        hembeds.undefined?_renumber hfirst]
  exact hsame _ hknown

/-- There are no fewer rules. -/
theorem length_rules_le : registry.rules.length ≤ other.rules.length := by
  have hlength := hembeds.rules.length_le
  rwa [List.length_map] at hlength

/-- There are no fewer references in bodies of rules. -/
theorem length_ruleMentions_le :
    (registry.ruleMentions true).length ≤ (other.ruleMentions true).length := by
  have hbodies : ∀ rules : List RuleBody, mentionsOf true (rules.flatMap (·.elements)) =
      rules.flatMap (mentionsOf true ·.elements) := by
    intro rules
    induction rules with
    | nil => rfl
    | cons body rest ih => rw [List.flatMap_cons, mentionsOf_append, ih, List.flatMap_cons]
  have hsame : ((registry.rules.map (·.renumber numbers)).flatMap (mentionsOf true ·.elements)) =
      (registry.rules.flatMap (mentionsOf true ·.elements)).map (·.renumber numbers) := by
    rw [List.flatMap_map, List.map_flatMap]
    exact List.flatMap_congr fun body _ => mentionsOf_renumber numbers true body.elements
  obtain ⟨middle, hperm, hsublist⟩ := hembeds.rules
  have hlength := (hsublist.flatMap (mentionsOf true ·.elements)).length_le
  rw [(hperm.flatMap_right _).length_eq, hsame, List.length_map] at hlength
  rw [ruleMentions, ruleMentions, hbodies, hbodies]
  exact hlength

/-- There is no smaller bound on the sites that can be met. -/
theorem siteBound_le (elements : List Element) :
    registry.siteBound elements ≤ other.siteBound (renumberSequence numbers elements) := by
  have hrules := hembeds.length_ruleMentions_le
  rw [ruleMentions, ruleMentions, length_mentionsOf, length_mentionsOf] at hrules
  rw [siteBound, siteBound, ← length_mentionsOf (renumberSequence numbers elements),
    mentionsOf_renumber, List.length_map, length_mentionsOf]
  exact Nat.add_le_add_left hrules _

end Registry.Embeds

end PegTemplates
