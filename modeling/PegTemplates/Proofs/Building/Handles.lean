import Mathlib.Algebra.Order.Group.Multiset
import PegTemplates.Proofs.Building.Renumbering
import PegTemplates.Proofs.Following.Tour

/-!
# Handles

The references and captured shapes in a sequence are its handles: with them a sequence
points to rules and to other shapes. They are listed at any depth, in link bodies as well.
-/

namespace PegTemplates

mutual

/-- References and captured shapes in an element, link bodies included. -/
def Element.handles : Element → List Element
  | .nonTerminal name site => [.nonTerminal name site]
  | .captured id => [.captured id]
  | .byte _ | .tag _ => []
  | .linked _ inner => handlesOf inner
  | .choice branches => handlesOfBranches branches
  | .zeroOrMore body | .oneOrMore body | .optional body => handlesOf body

/-- References and captured shapes in a sequence, link bodies included. -/
def handlesOf : List Element → List Element
  | [] => []
  | element :: rest => element.handles ++ handlesOf rest

/-- References and captured shapes in the branches of a choice, link bodies included. -/
def handlesOfBranches : List (List Element) → List Element
  | [] => []
  | branch :: rest => handlesOf branch ++ handlesOfBranches rest

end

/-- The shape that an element captures. -/
def Element.capture? : Element → Option ShapeId
  | .captured id => some id
  | _ => none

/-- The reference that an element is. -/
def Element.reference? : Element → Option Reference
  | .nonTerminal name site => some ⟨name, site⟩
  | _ => none

/-- Numbers of the shapes captured in a sequence, link bodies included. -/
def capturesOf (elements : List Element) : List ShapeId :=
  (handlesOf elements).filterMap (·.capture?)

@[simp] theorem handlesOf_append (first next : List Element) :
    handlesOf (first ++ next) = handlesOf first ++ handlesOf next := by
  induction first with
  | nil => rfl
  | cons element rest ih => simp only [List.cons_append, handlesOf, ih, List.append_assoc]

@[simp] theorem handlesOf_singleton (element : Element) : handlesOf [element] = element.handles :=
  List.append_nil _

/-- The handles in branches are those in the sequence of all of them. -/
@[simp] theorem handlesOfBranches_eq (branches : List (List Element)) :
    handlesOfBranches branches = handlesOf branches.flatten := by
  induction branches with
  | nil => rfl
  | cons branch rest ih => rw [handlesOfBranches, ih, List.flatten_cons, handlesOf_append]

@[simp] theorem capturesOf_append (first next : List Element) :
    capturesOf (first ++ next) = capturesOf first ++ capturesOf next := by
  rw [capturesOf, handlesOf_append, List.filterMap_append]
  rfl

/-- A shape is captured in a sequence if its capture is a handle. -/
theorem mem_capturesOf {elements : List Element} {id : ShapeId} :
    id ∈ capturesOf elements ↔ .captured id ∈ handlesOf elements := by
  rw [capturesOf, List.mem_filterMap]
  constructor
  · rintro ⟨handle, hhandle, hid⟩
    cases handle <;> cases hid
    exact hhandle
  · exact fun hhandle => ⟨_, hhandle, rfl⟩

mutual

/-- The references in an element are the references among its handles. -/
theorem Element.mentions_eq : ∀ element : Element,
    element.mentions true = element.handles.filterMap (·.reference?)
  | .nonTerminal _ _ | .captured _ | .byte _ | .tag _ => rfl
  | .linked _ inner => mentionsOf_eq inner
  | .choice branches => mentionsOfBranches_handles branches
  | .zeroOrMore body | .oneOrMore body | .optional body => mentionsOf_eq body

/-- The references in a sequence are the references among its handles. -/
theorem mentionsOf_eq : ∀ elements : List Element,
    mentionsOf true elements = (handlesOf elements).filterMap (·.reference?)
  | [] => rfl
  | element :: rest => by
    rw [mentionsOf, handlesOf, List.filterMap_append, element.mentions_eq, mentionsOf_eq rest]

/-- The references in branches are the references among their handles. -/
theorem mentionsOfBranches_handles : ∀ branches : List (List Element),
    mentionsOfBranches true branches = (handlesOfBranches branches).filterMap (·.reference?)
  | [] => rfl
  | branch :: rest => by
    rw [mentionsOfBranches, handlesOfBranches, List.filterMap_append, mentionsOf_eq branch,
      mentionsOfBranches_handles rest]

end

/-- A reference is mentioned in a sequence if it is a handle. -/
theorem mem_mentionsOf {elements : List Element} {reference : Reference} :
    reference ∈ mentionsOf true elements ↔
      .nonTerminal reference.name reference.site ∈ handlesOf elements := by
  rw [mentionsOf_eq, List.mem_filterMap]
  constructor
  · rintro ⟨handle, hhandle, hreference⟩
    cases handle <;> cases hreference
    exact hhandle
  · exact fun hhandle => ⟨_, hhandle, rfl⟩

/-- The handles of a sequence, each as often as it occurs. -/
def handles (elements : List Element) : Multiset Element := handlesOf elements

@[simp] theorem handles_nil : handles [] = 0 := rfl

@[simp] theorem handles_append (first next : List Element) :
    handles (first ++ next) = handles first + handles next := by
  rw [handles, handlesOf_append]
  rfl

@[simp] theorem handles_cons (element : Element) (rest : List Element) :
    handles (element :: rest) = handles [element] + handles rest :=
  handles_append [element] rest

/-- Reading a sequence backward meets the same handles. -/
@[simp] theorem handles_reverse (elements : List Element) :
    handles elements.reverse = handles elements := by
  induction elements with
  | nil => rfl
  | cons element rest ih =>
    rw [List.reverse_cons, handles_append, ih, handles_cons element rest, add_comm]

/-- A captured shape is its own only handle. -/
theorem handles_captured (id : ShapeId) : handles [.captured id] = {.captured id} := rfl

/-- A choice has the handles of its branches. -/
theorem handles_choice (branches : List (List Element)) :
    handles [.choice branches] = handles branches.flatten := by
  rw [handles, handlesOf_singleton, Element.handles, handlesOfBranches_eq]
  rfl

/-- An element around a body has the handles of the body. -/
theorem handles_singleton {element : Element} {body : List Element}
    (hbody : element.handles = handlesOf body) : handles [element] = handles body := by
  rw [handles, handlesOf_singleton, hbody]
  rfl

end PegTemplates
