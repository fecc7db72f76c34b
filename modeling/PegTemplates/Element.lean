/-!
# Elements: the shape-preserving view of a rule body

Of a rule body only what influences the shape of its output survives: literal
bytes, tags, links, captures, references, and the choices, options and
repetitions around them. The display of an element sequence spells that
structure in grammar notation.
-/

namespace PegTemplates

/-- Number of a captured shape; shapes are numbered as their captures close. -/
abbrev ShapeId := Nat

/-- Identity of one reference occurrence in a grammar. Expansion guards use it
rather than the name of the rule referred to. -/
structure Site where
  /-- Position in the order in which references are met. -/
  index : Nat
  deriving DecidableEq, Repr, Inhabited

/-- One part of an element sequence. -/
inductive Element where
  /-- Reference to a rule at one site. -/
  | nonTerminal (name : String) (site : Site)
  /-- A whole captured shape. -/
  | captured (id : ShapeId)
  /-- One literal byte. -/
  | byte (value : UInt8)
  /-- Name of the enclosing shape. -/
  | tag (name : String)
  /-- A child link around its body. -/
  | linked (label : Option String) (inner : List Element)
  /-- One of several sequences. -/
  | choice (branches : List (List Element))
  /-- Any number of repetitions of the body. -/
  | zeroOrMore (body : List Element)
  /-- At least one repetition of the body. -/
  | oneOrMore (body : List Element)
  /-- The body or nothing. -/
  | optional (body : List Element)
  deriving Repr, BEq, Inhabited

/-- Display of a literal byte: control characters with a short escape are
spelled by it, every other byte is the character of that code. -/
def displayByte (value : UInt8) : String :=
  if value = 0x08 then "\\b"
  else if value = 0x09 then "\\t"
  else if value = 0x0a then "\\n"
  else if value = 0x0c then "\\f"
  else if value = 0x0d then "\\r"
  else String.singleton (Char.ofUInt8 value)

/-- Display of a sequence from the displays of its elements: they are separated
by blanks, and an empty sequence is one blank. -/
def displayParts : List String → String
  | [] => " "
  | parts => " ".intercalate parts

mutual

/-- Display of one element in grammar notation. -/
def Element.display : Element → String
  | .nonTerminal name _ => s!"[{name}]"
  | .captured id => s!"[{id}]"
  | .byte value => displayByte value
  | .tag name => s!"#{name}"
  | .linked label inner => "$" ++ label.getD "" ++ s!"({displayParts (Element.displayEach inner)})"
  | .choice branches => "( " ++ " / ".intercalate (Element.displayBranches branches) ++ " )"
  | .zeroOrMore body => s!"({displayParts (Element.displayEach body)})*"
  | .oneOrMore body => s!"({displayParts (Element.displayEach body)})+"
  | .optional body => s!"({displayParts (Element.displayEach body)})?"

/-- Displays of the elements of a sequence. -/
def Element.displayEach : List Element → List String
  | [] => []
  | element :: rest => element.display :: Element.displayEach rest

/-- Displays of the branches of a choice. -/
def Element.displayBranches : List (List Element) → List String
  | [] => []
  | branch :: rest => displayParts (Element.displayEach branch) :: Element.displayBranches rest

end

/-- Display of an element sequence. -/
def displaySequence (elements : List Element) : String :=
  displayParts (Element.displayEach elements)

end PegTemplates
