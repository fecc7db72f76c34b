import PegTemplates.Layout

/-!
# Enumeration of bindings

Every layout has a rate, the number of ways in which its decisions can be taken:
which capture a link is bound to, which branch is read, whether an option or
repetition is there. One index picks one of them, read as a mixed-radix number
in which every node takes its own digit, the first node the lowest one. Parts
without a link offer no decision worth telling apart and count once.

Rates saturate at the largest 64-bit number.
-/

namespace PegTemplates

/-- The largest rate that is told apart. -/
def maxRate : Nat := Nat.pow 2 64 - 1

/-- A count, saturated. -/
def saturate (count : Nat) : Nat := min count maxRate

mutual

/-- Number of bindings of a node. -/
def Node.rate : Node → Nat
  | .text _ => 1
  | .link target => max target.inners.length 1
  | .choice branches =>
    max (saturate (linkedRate branches + if hasUnlinked branches then 1 else 0)) 1
  | .optional body | .zeroOrMore body => if hasLinks body then saturate (rateOf body + 1) else 1
  | .oneOrMore body => rateOf body

/-- Number of bindings of a layout. -/
def rateOf : List Node → Nat
  | [] => 1
  | node :: rest => saturate (node.rate * rateOf rest)

/-- Number of bindings of the branches that hold a link. -/
def linkedRate : List (List Node) → Nat
  | [] => 0
  | branch :: rest =>
    if hasLinks branch then saturate (rateOf branch + linkedRate rest) else linkedRate rest

/-- Whether one of the branches holds no link. -/
def hasUnlinked : List (List Node) → Bool
  | [] => false
  | branch :: rest => !hasLinks branch || hasUnlinked rest

end

/-- One piece of a resolved layout. -/
inductive Slot where
  /-- One literal byte. -/
  | text (value : UInt8)
  /-- A place where a linked child goes, with the text around it. -/
  | placeholder (label : Option String) (before after : String)
  /-- A part that is written again and again. -/
  | loop (body : List Slot)
  deriving Repr, BEq, Inhabited

/-- What a part of a layout resolves to. -/
structure Resolved where
  /-- Label entries of the links bound, in reading order. -/
  labels : List String
  /-- Pieces of the template. -/
  slots : List Slot
  deriving Repr, BEq, Inhabited

namespace Resolved

/-- A part that writes nothing. -/
def nothing : Resolved := ⟨[], []⟩

/-- One part and then another. -/
def append (first next : Resolved) : Resolved :=
  ⟨first.labels ++ next.labels, first.slots ++ next.slots⟩

/-- A part written as a loop. -/
def looped (body : Resolved) : Resolved := ⟨body.labels, [.loop body.slots]⟩

end Resolved

/-- Tags of every shape, by its number. -/
abbrev TagTable := List (List String)

/-- Label of a link that has none of its own. -/
def unlabeled : String := "unlabeled"

/-- Label entry of a link bound to a capture: the label, marked when the link
stands in a repetition, and the tags of the capture if it has any. -/
def labelEntry (tags : TagTable) (repeated : Bool) (label : Option String)
    (inner : LinkedInner) : String :=
  let entry := label.getD unlabeled ++ if repeated then "[]" else ""
  match inner.capture.bind fun id => tags[id]? with
  | none | some [] => entry
  | some names => entry ++ ": " ++ " / ".intercalate (names.map fun name => s!"#{name}")

/-- The capture that a digit binds a link to. A link that reaches no capture
still marks its place. -/
def Link.resolve (tags : TagTable) (repeated : Bool) (target : Link) (digit : Nat) : Resolved :=
  match target.inners[digit]? with
  | some inner =>
    ⟨[labelEntry tags repeated target.label inner],
      [.placeholder target.label inner.before inner.after]⟩
  | none => ⟨[], [.placeholder target.label "" ""]⟩

mutual

/-- What a node resolves to under its own digit. -/
def Node.resolve (tags : TagTable) (repeated : Bool) (digit : Nat) : Node → Resolved
  | .text value => ⟨[], [.text value]⟩
  | .link target => target.resolve tags repeated digit
  | .choice branches => resolveBranches tags repeated digit branches
  | .optional body =>
    if digit + 1 < (Node.optional body).rate then resolveLayout tags repeated digit body
    else .nothing
  | .zeroOrMore body =>
    if digit + 1 < (Node.zeroOrMore body).rate then (resolveLayout tags true digit body).looped
    else .nothing
  | .oneOrMore body => (resolveLayout tags true digit body).looped

/-- What a layout resolves to under an index, of which each node takes the
remainder by its rate and passes the quotient on. -/
def resolveLayout (tags : TagTable) (repeated : Bool) (index : Nat) : List Node → Resolved
  | [] => .nothing
  | node :: rest =>
    (node.resolve tags repeated (index % node.rate)).append
      (resolveLayout tags repeated (index / node.rate) rest)

/-- What the branches of a choice resolve to: the branches that hold a link take
their share of the digits in order, and behind them nothing is written. -/
def resolveBranches (tags : TagTable) (repeated : Bool) (digit : Nat) :
    List (List Node) → Resolved
  | [] => .nothing
  | branch :: rest =>
    if hasLinks branch then
      if digit < rateOf branch then resolveLayout tags repeated digit branch
      else resolveBranches tags repeated (digit - rateOf branch) rest
    else resolveBranches tags repeated digit rest

end

/-- One binding of a layout. -/
structure Binding where
  /-- Index that picks the binding. -/
  index : Nat
  /-- One entry per bound link, in reading order. -/
  labels : List String
  /-- Pieces of the template. -/
  layout : List Slot
  deriving Repr, BEq, Inhabited

/-- The label entries in one text. -/
def Binding.labelList (binding : Binding) : String := ", ".intercalate binding.labels

/-- The binding of a layout that an index picks, if the layout has that many. -/
def resolve (tags : TagTable) (nodes : List Node) (index : Nat) : Option Binding :=
  if index < rateOf nodes then
    let resolved := resolveLayout tags false index nodes
    some ⟨index, resolved.labels, resolved.slots⟩
  else none

end PegTemplates
