import PegTemplates.Expansion
import PegTemplates.Proofs.Following.Tour

/-!
# Steps through a link body

The captures of a link body are found by following the references in it, one after the other.
Nothing is done besides. So what holds of doing nothing, and of two steps in a row if it holds
of both, is shown to hold of the whole if it holds wherever a reference is followed.
-/

namespace PegTemplates

namespace Expansion

/-- Whether something holds of doing nothing, and of two steps in a row if it holds of both. -/
structure Sequential (holds : ∀ {α : Type}, ExpandM α → Prop) : Prop where
  /-- It holds of doing nothing. -/
  pure : ∀ {α : Type} (value : α), holds (pure value)
  /-- It holds of two steps in a row. -/
  bind : ∀ {α β : Type} {step : ExpandM α} {next : α → ExpandM β}, holds step →
    (∀ value, holds (next value)) → holds (step >>= next)

variable {holds : ∀ {α : Type}, ExpandM α → Prop}
  {enter : String → Site → ExpandM (Option (List LinkedInner))}

mutual

/-- What holds of following the references in an element holds of what the element contributes
to a link body. -/
theorem innersOfElement_holds (hholds : Sequential holds) : ∀ element : Element,
    (∀ reference ∈ element.mentions true, holds (enter reference.name reference.site)) →
      holds (innersOfElement enter element)
  | .nonTerminal name site, henter => henter ⟨name, site⟩ List.mem_cons_self
  | .choice branches, henter => innersOfBranches_holds hholds branches none henter
  | .captured _, _ | .byte _, _ | .tag _, _ | .linked _ _, _ | .optional _, _ | .zeroOrMore _, _
  | .oneOrMore _, _ => hholds.pure _

/-- What holds of following the references in a sequence holds of what the sequence contributes
to a link body. -/
theorem innersOfSequence_holds (hholds : Sequential holds) :
    ∀ (elements : List Element) (found : Option (List LinkedInner)),
      (∀ reference ∈ mentionsOf true elements, holds (enter reference.name reference.site)) →
      holds (innersOfSequence enter found elements)
  | [], _, _ => hholds.pure _
  | element :: rest, _, henter =>
    hholds.bind (innersOfElement_holds hholds element (List.forall_mem_append.mp henter).1)
      fun _ => innersOfSequence_holds hholds rest _ (List.forall_mem_append.mp henter).2

/-- What holds of following the references in branches holds of what the branches contribute to
a link body. -/
theorem innersOfBranches_holds (hholds : Sequential holds) :
    ∀ (branches : List (List Element)) (found : Option (List LinkedInner)),
      (∀ reference ∈ mentionsOfBranches true branches,
        holds (enter reference.name reference.site)) →
      holds (innersOfBranches enter found branches)
  | [], _, _ => hholds.pure _
  | branch :: rest, _, henter =>
    hholds.bind (innersOfSequence_holds hholds branch none (List.forall_mem_append.mp henter).1)
      fun _ => innersOfBranches_holds hholds rest _ (List.forall_mem_append.mp henter).2

end

end Expansion

end PegTemplates
