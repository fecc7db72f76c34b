import PegTemplates.Registry

/-!
# Tag alternatives

The tags of a shape are found depth first through its sequence: in every branch
of a choice, in options and repetitions, and through references into the bodies
of rules. Captures and link bodies belong to other shapes and are not searched.
One search enters each rule at most once.

A tag comes with the sequence specialized for it: the choices on the way to the
tag are fixed to the branch that holds it, options are taken, repetitions run at
least once, and references are replaced by the fixed body of their rule.
-/

namespace PegTemplates

/-- A tag of a shape with the sequence specialized for it. -/
structure TagAlternative where
  /-- The tag. -/
  tag : String
  /-- The sequence in which the way to the tag is fixed. -/
  elements : List Element
  deriving Repr, BEq, Inhabited

namespace TagSearch

/-- State of one search. -/
structure Progress where
  /-- Number of tags still to be passed over. -/
  skip : Nat
  /-- Names of the rules entered so far. -/
  visited : List String
  deriving Repr, Inhabited

/-- Steps of a search; an undefined rule ends it. -/
abbrev SearchM := StateT Progress (Except AnalysisError)

mutual

/-- Searches one element. On a hit, gives the tag and what replaces the element
in the specialized sequence. -/
def inElement (enter : String → SearchM (Option TagAlternative)) :
    Element → SearchM (Option TagAlternative)
  | .tag name => do
    let progress ← get
    match progress.skip with
    | 0 => return some ⟨name, [.tag name]⟩
    | left + 1 =>
      set { progress with skip := left }
      return none
  | .choice branches => inBranches enter branches
  | .optional body => inSequence enter body
  | .zeroOrMore body | .oneOrMore body => do
    let hit ← inSequence enter body
    return hit.map fun found => ⟨found.tag, [.oneOrMore found.elements]⟩
  | .nonTerminal name _ => enter name
  | .captured _ | .byte _ | .linked _ _ => return none

/-- Searches a sequence. On a hit, the element that held the tag is replaced and
everything around it stays. -/
def inSequence (enter : String → SearchM (Option TagAlternative)) :
    List Element → SearchM (Option TagAlternative)
  | [] => return none
  | element :: rest => do
    match ← inElement enter element with
    | some found => return some ⟨found.tag, found.elements ++ rest⟩
    | none =>
      let hit ← inSequence enter rest
      return hit.map fun found => ⟨found.tag, element :: found.elements⟩

/-- Searches the branches of a choice. A hit stands for the whole choice. -/
def inBranches (enter : String → SearchM (Option TagAlternative)) :
    List (List Element) → SearchM (Option TagAlternative)
  | [] => return none
  | branch :: rest => do
    match ← inSequence enter branch with
    | some found => return some found
    | none => inBranches enter rest

end

/-- Follows a reference unless its rule was entered before. -/
def once (registry : Registry) (name : String)
    (search : List Element → SearchM (Option TagAlternative)) :
    SearchM (Option TagAlternative) := do
  let progress ← get
  if progress.visited.contains name then return none
  set { progress with visited := name :: progress.visited }
  let body ← registry.body name
  search body.elements

/-- Follows a reference into its rule, through at most `depth` further ones.
Every rule on the way is a different one, so the number of rules is deep enough. -/
def follow (registry : Registry) : Nat → String → SearchM (Option TagAlternative)
  | 0, name => once registry name fun _ => return none
  | depth + 1, name => once registry name (inSequence (follow registry depth))

/-- The tag alternative after the first `skip` ones. -/
def nth (registry : Registry) (elements : List Element) (skip : Nat) :
    Except AnalysisError (Option TagAlternative) := do
  let (hit, _) ← (inSequence (follow registry registry.rules.length) elements).run ⟨skip, []⟩
  return hit

end TagSearch

/-- Position in the list of tag alternatives of a sequence. -/
structure TagCursor where
  /-- Sequence searched. -/
  elements : List Element
  /-- Number of alternatives handed out. -/
  found : Nat
  /-- Set once a search found nothing or failed. -/
  exhausted : Bool
  deriving Repr, Inhabited

namespace TagCursor

/-- Cursor before the first alternative. -/
def start (elements : List Element) : TagCursor := ⟨elements, 0, false⟩

/-- Next alternative, and the cursor behind it. After the last alternative, and
after an undefined rule has been reported, nothing follows. -/
def next (registry : Registry) (cursor : TagCursor) :
    Option (Except AnalysisError TagAlternative) × TagCursor :=
  if cursor.exhausted then (none, cursor)
  else
    match TagSearch.nth registry cursor.elements cursor.found with
    | .ok (some hit) => (some (.ok hit), { cursor with found := cursor.found + 1 })
    | .ok none => (none, { cursor with exhausted := true })
    | .error reason => (some (.error reason), { cursor with exhausted := true })

/-- An exhausted cursor hands out nothing and stays as it is. -/
theorem next_of_exhausted {registry : Registry} {cursor : TagCursor}
    (spent : cursor.exhausted = true) : cursor.next registry = (none, cursor) := by
  simp [next, spent]

/-- Everything the cursor hands out in at most `calls` calls. -/
def take (registry : Registry) : Nat → TagCursor →
    List (Except AnalysisError TagAlternative)
  | 0, _ => []
  | calls + 1, cursor =>
    match cursor.next registry with
    | (none, _) => []
    | (some item, after) => item :: take registry calls after

end TagCursor

namespace Registry

mutual

/-- Number of tags in an element, link bodies left out. -/
def tagsIn : Element → Nat
  | .tag _ => 1
  | .choice branches => tagsInBranches branches
  | .zeroOrMore body | .oneOrMore body | .optional body => tagCount body
  | .nonTerminal _ _ | .captured _ | .byte _ | .linked _ _ => 0

/-- Number of tags in a sequence, link bodies left out. -/
def tagCount : List Element → Nat
  | [] => 0
  | element :: rest => tagsIn element + tagCount rest

/-- Number of tags in the branches of a choice, link bodies left out. -/
def tagsInBranches : List (List Element) → Nat
  | [] => 0
  | branch :: rest => tagCount branch + tagsInBranches rest

end

/-- A bound on the number of tags that can be found from a sequence: each tag
of the sequence and of every rule body counts once. -/
def tagBound (registry : Registry) (elements : List Element) : Nat :=
  tagCount elements + tagCount (registry.rules.flatMap (·.elements))

/-- The tag alternatives of a sequence in order of discovery. An undefined rule
is the last item. -/
def alternatives (registry : Registry) (elements : List Element) :
    List (Except AnalysisError TagAlternative) :=
  (TagCursor.start elements).take registry (registry.tagBound elements + 1)

/-- The tag alternatives of a sequence, or the undefined rule met among them. -/
def tagAlternatives (registry : Registry) (elements : List Element) :
    Except AnalysisError (List TagAlternative) :=
  (registry.alternatives elements).mapM id

/-- The tags of a sequence in order of discovery. -/
def tagNames (registry : Registry) (elements : List Element) :
    Except AnalysisError (List String) := do
  return (← registry.tagAlternatives elements).map (·.tag)

end Registry

end PegTemplates
