/-!
# Writing JSON

A JSON value as it is written: objects keep the order of their fields. The
compact text has no blanks at all; the indented text has one element a line and
two blanks a level.
-/

namespace PegTemplates.Json

/-- A JSON value to be written. -/
inductive Value where
  /-- The literal `null`. -/
  | null
  /-- A natural number. -/
  | number (value : Nat)
  /-- A string. -/
  | text (value : String)
  /-- An array. -/
  | array (items : List Value)
  /-- An object with its fields in order. -/
  | object (fields : List (String × Value))
  deriving Repr, Inhabited

/-- Digit of a number below sixteen. -/
def hexLetter (digit : Nat) : Char := (Nat.toDigits 16 digit).headD '0'

/-- Escaped form of a character in a JSON string. -/
def escapedChar (c : Char) : String :=
  if c = '"' then "\\\""
  else if c = '\\' then "\\\\"
  else if c = '\x08' then "\\b"
  else if c = '\x0c' then "\\f"
  else if c = '\n' then "\\n"
  else if c = '\r' then "\\r"
  else if c = '\t' then "\\t"
  else if c.toNat < 0x20 then
    "\\u00" ++ String.ofList [hexLetter (c.toNat / 16), hexLetter (c.toNat % 16)]
  else String.singleton c

/-- A JSON string. -/
def stringText (text : String) : String :=
  "\"" ++ String.join (text.toList.map escapedChar) ++ "\""

mutual

/-- Text of a value without blanks. -/
def Value.compact : Value → String
  | .null => "null"
  | .number value => toString value
  | .text value => stringText value
  | .array items => "[" ++ ",".intercalate (compactItems items) ++ "]"
  | .object fields => "\x7b" ++ ",".intercalate (compactFields fields) ++ "\x7d"

/-- Texts of the items of an array. -/
def compactItems : List Value → List String
  | [] => []
  | item :: rest => item.compact :: compactItems rest

/-- Texts of the fields of an object. -/
def compactFields : List (String × Value) → List String
  | [] => []
  | (name, value) :: rest => (stringText name ++ ":" ++ value.compact) :: compactFields rest

end

/-- Blanks in front of a line at that level. -/
def indentation (level : Nat) : String := String.ofList (List.replicate (2 * level) ' ')

/-- The lines of an array or object between its delimiters. -/
def block (level : Nat) (opening closing : String) (parts : List String) : String :=
  match parts with
  | [] => opening ++ closing
  | _ =>
    opening ++ "\n" ++
      ",\n".intercalate (parts.map fun part => indentation (level + 1) ++ part) ++
      "\n" ++ indentation level ++ closing

mutual

/-- Text of a value at that level of indentation. -/
def Value.indented (level : Nat) : Value → String
  | .null => "null"
  | .number value => toString value
  | .text value => stringText value
  | .array items => block level "[" "]" (indentedItems (level + 1) items)
  | .object fields => block level "\x7b" "\x7d" (indentedFields (level + 1) fields)

/-- Texts of the items of an array. -/
def indentedItems (level : Nat) : List Value → List String
  | [] => []
  | item :: rest => item.indented level :: indentedItems level rest

/-- Texts of the fields of an object. -/
def indentedFields (level : Nat) : List (String × Value) → List String
  | [] => []
  | (name, value) :: rest =>
    (stringText name ++ ": " ++ value.indented level) :: indentedFields level rest

end

/-- Indented text of a value. -/
def Value.pretty (value : Value) : String := value.indented 0

end PegTemplates.Json
