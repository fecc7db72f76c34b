import PegTemplates.Element

/-!
# Layouts

A layout describes one shape under one tag after all references have been
expanded: literal bytes, links with the captures they can reach, and the
choices, options and repetitions that the tag leaves open. Joining the parts of
a link body keeps the text before the capture and the text after it apart.
-/

namespace PegTemplates

/-- One way of reaching a capture through a link body. -/
structure LinkedInner where
  /-- The capture, if there is one. -/
  capture : Option ShapeId
  /-- Text read before the capture, or all text if there is none. -/
  before : String
  /-- Text read after the capture. -/
  after : String
  deriving DecidableEq, Repr, Inhabited

namespace LinkedInner

/-- No capture and no text. -/
def empty : LinkedInner := ⟨none, "", ""⟩

/-- A capture alone. -/
def ofCapture (id : ShapeId) : LinkedInner := ⟨some id, "", ""⟩

/-- One literal byte as text. -/
def ofByte (value : UInt8) : LinkedInner := ⟨none, String.singleton (Char.ofUInt8 value), ""⟩

/-- First one part, then the next. Text goes before the capture until a part
carries one, and after it from then on; of two captures the later is kept, and
the text around the earlier one counts as read before. -/
def join (first next : LinkedInner) : LinkedInner :=
  match first.capture, next.capture with
  | none, found => ⟨found, first.before ++ next.before, next.after⟩
  | some id, none => ⟨some id, first.before, first.after ++ next.before ++ next.after⟩
  | some _, some id => ⟨some id, first.before ++ first.after ++ next.before, next.after⟩

/-- Joining something to the empty part gives that thing. -/
theorem empty_join (part : LinkedInner) : empty.join part = part := by
  simp [join, empty]

end LinkedInner

/-- A link and every capture it can reach. -/
structure Link where
  /-- Label of the link. -/
  label : Option String
  /-- Ways of reaching a capture, one per capture, in order of discovery. -/
  inners : List LinkedInner
  deriving DecidableEq, Repr, Inhabited

/-- One part of a layout. -/
inductive Node where
  /-- One literal byte. -/
  | text (value : UInt8)
  /-- A link. -/
  | link (target : Link)
  /-- A choice that the tag leaves open. -/
  | choice (branches : List (List Node))
  /-- The body or nothing. -/
  | optional (body : List Node)
  /-- Any number of repetitions of the body. -/
  | zeroOrMore (body : List Node)
  /-- At least one repetition of the body. -/
  | oneOrMore (body : List Node)
  deriving Repr, BEq, Inhabited

mutual

/-- Every link in a node, depth first. -/
def Node.links : Node → List Link
  | .text _ => []
  | .link target => [target]
  | .choice branches => linksOfBranches branches
  | .optional body | .zeroOrMore body | .oneOrMore body => linksOf body

/-- Every link in a layout, depth first. -/
def linksOf : List Node → List Link
  | [] => []
  | node :: rest => node.links ++ linksOf rest

/-- Every link in the branches of a choice, depth first. -/
def linksOfBranches : List (List Node) → List Link
  | [] => []
  | branch :: rest => linksOf branch ++ linksOfBranches rest

end

mutual

/-- Whether a node holds a link. -/
def Node.hasLinks : Node → Bool
  | .text _ => false
  | .link _ => true
  | .choice branches => anyHasLinks branches
  | .optional body | .zeroOrMore body | .oneOrMore body => hasLinks body

/-- Whether a layout holds a link. -/
def hasLinks : List Node → Bool
  | [] => false
  | node :: rest => node.hasLinks || hasLinks rest

/-- Whether one of the branches holds a link. -/
def anyHasLinks : List (List Node) → Bool
  | [] => false
  | branch :: rest => hasLinks branch || anyHasLinks rest

end

end PegTemplates
