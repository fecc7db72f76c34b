import PegTemplates.Binding

/-!
# Template text

The text of a resolved layout: literal bytes and the texts around a link are
escaped, a link is a placeholder, and a repetition is framed as a loop. A
layout that writes nothing has no text of its own, nor has the layout of an
unnamed shape without a placeholder.
-/

namespace PegTemplates

/-- Escaped form of a character: quotes and backslash are marked by a backslash,
control characters with a short escape are spelled by it. -/
def escapeChar (c : Char) : String :=
  if c = '\\' then "\\\\"
  else if c = '"' then "\\\""
  else if c = '\'' then "\\'"
  else if c = '\x08' then "\\b"
  else if c = '\t' then "\\t"
  else if c = '\n' then "\\n"
  else if c = '\x0c' then "\\f"
  else if c = '\r' then "\\r"
  else String.singleton c

/-- Escaped form of a byte, read as the character of that code. -/
def escapeByte (value : UInt8) : String := escapeChar (Char.ofUInt8 value)

/-- Escaped form of a text, character by character. -/
def escapeText (text : String) : String := String.join (text.toList.map escapeChar)

/-- Body of a block whose binding renders nothing. -/
def defaultBody : String := "$\x7bthis.toText()\x7d"

/-- Placeholder of a link: by its label, or by position when it has none. -/
def placeholder (label : Option String) : String :=
  match label with
  | some name => "$\x7b" ++ name ++ "\x7d"
  | none => "$\x7bthis.get(i)\x7d"

/-- Frame around the text of a repetition. Nothing is repeated as nothing. -/
def loopFrame (body : String) : String :=
  if body.isEmpty then "" else "\nwhile(true)\x7b\n" ++ body ++ "\n\x7d\n"

mutual

/-- Text of one piece. -/
def Slot.template : Slot → String
  | .text value => escapeByte value
  | .placeholder label before after => escapeText before ++ placeholder label ++ escapeText after
  | .loop body => loopFrame (layoutText body)

/-- Text of a resolved layout. -/
def layoutText : List Slot → String
  | [] => ""
  | slot :: rest => slot.template ++ layoutText rest

end

mutual

/-- Whether a piece holds a placeholder. -/
def Slot.hasPlaceholder : Slot → Bool
  | .text _ => false
  | .placeholder _ _ _ => true
  | .loop body => hasPlaceholder body

/-- Whether a resolved layout holds a placeholder. -/
def hasPlaceholder : List Slot → Bool
  | [] => false
  | slot :: rest => slot.hasPlaceholder || hasPlaceholder rest

end

/-- Template of a resolved layout, for a named or an unnamed shape. -/
def render (named : Bool) (layout : List Slot) : Option String :=
  let text := layoutText layout
  if text.isEmpty || (!named && !hasPlaceholder layout) then none else some text

end PegTemplates
