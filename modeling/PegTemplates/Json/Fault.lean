import PegTemplates.Decimal.Plain
import PegTemplates.Text.Quoted

/-!
# Faults of a JSON document

The first problem met while a document is read: what it is, and the path of the
node at which it was met. A fault is of one of three categories: the text is no
JSON, the text ends too early, or a value is not of the kind that belongs there.
-/

namespace PegTemplates.Json

/-- Category of a fault. -/
inductive Category where
  /-- The text is not well formed. -/
  | ill
  /-- A value does not belong where it stands. -/
  | data
  /-- The text ends too early. -/
  | ending
  deriving DecidableEq, Repr, Inhabited

/-- A value that does not belong where it stands. -/
inductive Found where
  /-- The literal `null`. -/
  | null
  /-- A truth value. -/
  | boolean (value : Bool)
  /-- An integer of at most 64 bits. -/
  | integer (value : Int)
  /-- Any other number. -/
  | float (value : Float)
  /-- A string. -/
  | string (value : String)
  /-- An array. -/
  | sequence
  /-- An object. -/
  | map
  /-- A bare variant name. -/
  | unitVariant

/-- Wording of a value found. -/
def Found.text : Found → String
  | .null => "null"
  | .boolean value => s!"boolean `{value}`"
  | .integer value => s!"integer `{value}`"
  | .float value => "floating point `" ++ Decimal.floatText value ++ "`"
  | .string value => "string " ++ Text.quoted value
  | .sequence => "sequence"
  | .map => "map"
  | .unitVariant => "unit variant"

/-- What is wrong. -/
inductive Cause where
  /-- The text ends where a value should be. -/
  | endInValue
  /-- The text ends inside a string. -/
  | endInString
  /-- The text ends inside an array. -/
  | endInList
  /-- The text ends inside an object. -/
  | endInObject
  /-- No value can start here. -/
  | expectedValue
  /-- A literal is misspelled. -/
  | expectedLiteral
  /-- The colon behind a key is missing. -/
  | expectedColon
  /-- An array goes on with neither a comma nor its end. -/
  | expectedCommaOrBracket
  /-- An object goes on with neither a comma nor its end. -/
  | expectedCommaOrBrace
  /-- A comma stands before the end of an array or object. -/
  | trailingComma
  /-- An array goes on behind its last field. -/
  | trailingCharacters
  /-- A key does not start with a quote. -/
  | keyNotString
  /-- A number is misspelled. -/
  | invalidNumber
  /-- A number is too large for a float. -/
  | numberOutOfRange
  /-- An escape is misspelled. -/
  | invalidEscape
  /-- A surrogate stands where it belongs to no pair. -/
  | loneSurrogate
  /-- The second half of a surrogate pair is missing. -/
  | missingSurrogate
  /-- The bytes of a string are not UTF-8. -/
  | invalidCodePoint
  /-- A control character stands in a string. -/
  | controlCharacter
  /-- Arrays and objects are nested too deeply. -/
  | tooDeep
  /-- A value is of the wrong type. -/
  | wrongType (found : Found) (expected : String)
  /-- A value is of the right type but out of range. -/
  | wrongValue (found : Found) (expected : String)
  /-- An array has too few fields. -/
  | wrongLength (length : Nat) (expected : String)
  /-- A variant has an unknown name. -/
  | unknownVariant (name : String) (known : List String)
  /-- A field is missing. -/
  | missingField (name : String)
  /-- A field occurs twice. -/
  | duplicateField (name : String)

namespace Cause

/-- Category of the cause. -/
def category : Cause → Category
  | endInValue | endInString | endInList | endInObject => .ending
  | wrongType .. | wrongValue .. | wrongLength .. | unknownVariant .. | missingField _
  | duplicateField _ => .data
  | _ => .ill

/-- Wording of the cause. -/
def message : Cause → String
  | endInValue => "EOF while parsing a value"
  | endInString => "EOF while parsing a string"
  | endInList => "EOF while parsing a list"
  | endInObject => "EOF while parsing an object"
  | expectedValue => "expected value"
  | expectedLiteral => "expected ident"
  | expectedColon => "expected `:`"
  | expectedCommaOrBracket => "expected `,` or `]`"
  | expectedCommaOrBrace => "expected `,` or `\x7d`"
  | trailingComma => "trailing comma"
  | trailingCharacters => "trailing characters"
  | keyNotString => "key must be a string"
  | invalidNumber => "invalid number"
  | numberOutOfRange => "number out of range"
  | invalidEscape => "invalid escape"
  | loneSurrogate => "lone leading surrogate in hex escape"
  | missingSurrogate => "unexpected end of hex escape"
  | invalidCodePoint => "invalid unicode code point"
  | controlCharacter => "control character (\\u0000-\\u001F) found while parsing a string"
  | tooDeep => "recursion limit exceeded"
  | wrongType found expected => s!"invalid type: {found.text}, expected {expected}"
  | wrongValue found expected => s!"invalid value: {found.text}, expected {expected}"
  | wrongLength length expected => s!"invalid length {length}, expected {expected}"
  | unknownVariant name known =>
    s!"unknown variant `{name}`, expected one of " ++
      ", ".intercalate (known.map fun each => s!"`{each}`")
  | missingField name => s!"missing field `{name}`"
  | duplicateField name => s!"duplicate field `{name}`"

end Cause

/-- One step of the way to a node. -/
inductive Segment where
  /-- Into the value of a field or variant. -/
  | field (key : String)
  /-- Into a position of an array. -/
  | position (index : Nat)
  /-- Into a field whose name could not be read. -/
  | unknown
  deriving DecidableEq, Repr, Inhabited

/-- Text of a segment behind another: positions follow directly, names after a
point. -/
def Segment.behind : Segment → String
  | .field key => "." ++ key
  | .position index => s!"[{index}]"
  | .unknown => ".?"

/-- Text of a path; the way to the top is a point. -/
def pathText : List Segment → String
  | [] => "."
  | first :: rest =>
    let head := match first with
      | .field key => key
      | .position index => s!"[{index}]"
      | .unknown => "?"
    head ++ String.join (rest.map Segment.behind)

/-- The first problem of a document. -/
structure Fault where
  /-- What is wrong. -/
  cause : Cause
  /-- The way to the node at which it was met. -/
  path : List Segment

/-- The same problem seen from one level further up. -/
def Fault.within (segment : Segment) (fault : Fault) : Fault :=
  { fault with path := segment :: fault.path }

/-- Wording of a fault of a document of that origin. -/
def Fault.message (origin : String) (fault : Fault) : String :=
  s!"{origin}: at JSON path {pathText fault.path} → {fault.cause.message}"

end PegTemplates.Json
