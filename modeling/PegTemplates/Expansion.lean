import PegTemplates.Event
import PegTemplates.Layout

/-!
# Expansion of references

Expansion turns an element sequence into a layout. References are replaced by
the bodies of their rules; each reference site is expanded at most once per
query, and a site that is met again contributes nothing. The body of a link is
a query of its own: it is reduced to the captures it can reach, each with the
literal text around it.
-/

namespace PegTemplates

namespace Expansion

/-- State of one expansion. -/
structure Progress where
  /-- Sites expanded so far in the query. -/
  expanded : List Site
  /-- What was reported so far, latest first. -/
  events : List Event
  deriving Repr, Inhabited

/-- Steps of an expansion; what was reported is kept when a step fails. -/
abbrev ExpandM := EStateM AnalysisError Progress

/-- Follows a reference unless its site was expanded before. -/
def once (registry : Registry) {α : Type} (repeated : String → Event) (nothing : α)
    (name : String) (site : Site) (expand : List Element → ExpandM α) : ExpandM α := do
  let progress ← get
  if progress.expanded.contains site then
    set { progress with events := repeated name :: progress.events }
    return nothing
  set { progress with expanded := site :: progress.expanded }
  match registry.body name with
  | .ok body => expand body.elements
  | .error reason => throw reason

/-- Follows a reference, through at most `depth` further ones. Every site on the
way is a different one, so the number of sites is deep enough. -/
def follow (registry : Registry) {α : Type} (repeated : String → Event) (nothing : α)
    (expand : (String → Site → ExpandM α) → List Element → ExpandM α) :
    Nat → String → Site → ExpandM α
  | 0, name, site => once registry repeated nothing name site fun _ => return nothing
  | depth + 1, name, site =>
    once registry repeated nothing name site
      (expand (follow registry repeated nothing expand depth))

/-- One part read after another: all pairs are joined. `none` is a part that
contributes nothing at all. -/
def joinParts : Option (List LinkedInner) → Option (List LinkedInner) →
    Option (List LinkedInner)
  | none, next => next
  | some found, none => some found
  | some found, some next => some (found.flatMap fun first => next.map first.join)

/-- One branch or another: what both give is listed. -/
def unionParts : Option (List LinkedInner) → Option (List LinkedInner) →
    Option (List LinkedInner)
  | none, next => next
  | some found, none => some found
  | some found, some next => some (found ++ next)

mutual

/-- What an element contributes to a link body. -/
def innersOfElement (enter : String → Site → ExpandM (Option (List LinkedInner))) :
    Element → ExpandM (Option (List LinkedInner))
  | .captured id => return some [.ofCapture id]
  | .byte value => return some [.ofByte value]
  | .nonTerminal name site => enter name site
  | .choice branches => innersOfBranches enter none branches
  | .tag _ | .linked _ _ | .optional _ | .zeroOrMore _ | .oneOrMore _ => return none

/-- What a sequence contributes after what has been read so far. -/
def innersOfSequence (enter : String → Site → ExpandM (Option (List LinkedInner)))
    (found : Option (List LinkedInner)) :
    List Element → ExpandM (Option (List LinkedInner))
  | [] => return found
  | element :: rest => do
    let next ← innersOfElement enter element
    innersOfSequence enter (joinParts found next) rest

/-- What the branches of a choice contribute next to what has been found so far. -/
def innersOfBranches (enter : String → Site → ExpandM (Option (List LinkedInner)))
    (found : Option (List LinkedInner)) :
    List (List Element) → ExpandM (Option (List LinkedInner))
  | [] => return found
  | branch :: rest => do
    let next ← innersOfSequence enter none branch
    innersOfBranches enter (unionParts found next) rest

end

/-- Keeps the first entry for each capture and drops entries without one. -/
def distinctCaptures (seen : List ShapeId) : List LinkedInner → List LinkedInner
  | [] => []
  | inner :: rest =>
    match inner.capture with
    | none => distinctCaptures seen rest
    | some id =>
      if seen.contains id then distinctCaptures seen rest
      else inner :: distinctCaptures (id :: seen) rest

/-- The captures that a link body can reach. The body is a query of its own, so
the sites expanded around it do not count. -/
def linkedInners (registry : Registry) (inner : List Element) : ExpandM (List LinkedInner) := do
  let outer ← get
  set { outer with expanded := [] }
  let enter := follow registry .repeatedReferenceInLink none
    (fun enter => innersOfSequence enter none) (registry.siteBound inner)
  let found ← innersOfSequence enter none inner
  modify fun progress => { progress with expanded := outer.expanded }
  return distinctCaptures [] (found.getD [])

mutual

/-- Layout of one element. -/
def layoutOfElement (registry : Registry) (enter : String → Site → ExpandM (List Node)) :
    Element → ExpandM (List Node)
  | .byte value => return [.text value]
  | .tag _ | .captured _ => return []
  | .nonTerminal name site => enter name site
  | .linked label inner => do
    return [.link ⟨label, ← linkedInners registry inner⟩]
  | .choice branches => do
    return [.choice (← layoutOfBranches registry enter branches)]
  | .optional body => do
    return [.optional (← layoutOfSequence registry enter body)]
  | .zeroOrMore body => do
    return [.zeroOrMore (← layoutOfSequence registry enter body)]
  | .oneOrMore body => do
    return [.oneOrMore (← layoutOfSequence registry enter body)]

/-- Layout of a sequence. -/
def layoutOfSequence (registry : Registry) (enter : String → Site → ExpandM (List Node)) :
    List Element → ExpandM (List Node)
  | [] => return []
  | element :: rest => do
    let first ← layoutOfElement registry enter element
    return first ++ (← layoutOfSequence registry enter rest)

/-- Layouts of the branches of a choice. -/
def layoutOfBranches (registry : Registry) (enter : String → Site → ExpandM (List Node)) :
    List (List Element) → ExpandM (List (List Node))
  | [] => return []
  | branch :: rest => do
    let first ← layoutOfSequence registry enter branch
    return first :: (← layoutOfBranches registry enter rest)

end

/-- Layout of a sequence as a query of its own. -/
def layout (registry : Registry) (elements : List Element) : ExpandM (List Node) :=
  layoutOfSequence registry
    (follow registry .repeatedReference [] (layoutOfSequence registry)
      (registry.siteBound elements)) elements

/-- Result of a query that starts with nothing expanded. -/
def answer {α : Type} (query : ExpandM α) : Except AnalysisError α :=
  match query.run ⟨[], []⟩ with
  | .ok value _ => .ok value
  | .error reason _ => .error reason

/-- What a query reports, whether or not it succeeds. -/
def events {α : Type} (query : ExpandM α) : List Event :=
  match query.run ⟨[], []⟩ with
  | .ok _ progress => progress.events.reverse
  | .error _ progress => progress.events.reverse

end Expansion

namespace Registry

/-- The layout of an element sequence, or the undefined rule met in it. -/
def layout (registry : Registry) (elements : List Element) : Except AnalysisError (List Node) :=
  Expansion.answer (Expansion.layout registry elements)

/-- What is reported while a sequence is laid out. -/
def layoutEvents (registry : Registry) (elements : List Element) : List Event :=
  Expansion.events (Expansion.layout registry elements)

/-- The captures that a link body can reach, or the undefined rule met in it. -/
def linkedInners (registry : Registry) (inner : List Element) :
    Except AnalysisError (List LinkedInner) :=
  Expansion.answer (Expansion.linkedInners registry inner)

/-- Every link in the layout of an element sequence. -/
def reachableLinks (registry : Registry) (elements : List Element) :
    Except AnalysisError (List Link) := do
  return linksOf (← registry.layout elements)

end Registry

end PegTemplates
