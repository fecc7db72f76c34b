import PegTemplates.Json.Fault

/-!
# Reading JSON from bytes

A reader takes a value off the front of a byte list or stops at the first
problem. This module holds what all readers share: blanks, literals, and the
separators of arrays and objects. Loops over parts of a document are bounded by
a number that is at least the length of the document; every round takes at least
one byte, so the bound is never what ends a loop.
-/

namespace PegTemplates.Json

/-- Bytes of a document. -/
abbrev Bytes := List UInt8

/-- Readers: each step takes bytes off the front or stops with a fault. -/
abbrev ReadM := StateT Bytes (Except Fault)

/-- A double quote. -/
def quote : UInt8 := 0x22

/-- A comma. -/
def comma : UInt8 := 0x2c

/-- A colon. -/
def colon : UInt8 := 0x3a

/-- An opening bracket. -/
def openBracket : UInt8 := 0x5b

/-- A backslash. -/
def backslash : UInt8 := 0x5c

/-- A closing bracket. -/
def closeBracket : UInt8 := 0x5d

/-- An opening brace. -/
def openBrace : UInt8 := 0x7b

/-- A closing brace. -/
def closeBrace : UInt8 := 0x7d

/-- A minus sign. -/
def minus : UInt8 := 0x2d

/-- A decimal point. -/
def point : UInt8 := 0x2e

/-- A digit. -/
def isDigit (b : UInt8) : Bool := 0x30 ≤ b && b ≤ 0x39

/-- Zero. -/
def zeroDigit : UInt8 := 0x30

/-- Blank, tab, line feed or carriage return. -/
def isBlank (b : UInt8) : Bool := b = 0x20 || b = 0x09 || b = 0x0a || b = 0x0d

/-- Stops with a fault at the current node. -/
def fail {α : Type} (cause : Cause) : ReadM α := throw ⟨cause, []⟩

/-- Reads something one level further down. -/
def within {α : Type} (segment : Segment) (read : ReadM α) : ReadM α := fun bytes =>
  match read bytes with
  | .ok result => .ok result
  | .error fault => .error (fault.within segment)

/-- Skips blanks and looks at the byte behind them. -/
def peek : ReadM (Option UInt8) := do
  modify (·.dropWhile isBlank)
  return (← get).head?

/-- Takes one byte. -/
def advance : ReadM Unit := modify List.tail

/-- Whether the byte marks an exponent. -/
def isExponentMark (b : UInt8) : Bool := b = 0x65 || b = 0x45

/-- Takes digits as long as there are any. -/
def takeDigits : ReadM Bytes :=
  modifyGet fun bytes => (bytes.takeWhile isDigit, bytes.dropWhile isDigit)

/-- Takes a sign of an exponent; gives whether it is a minus. -/
def takeSign : ReadM Bool := do
  match ← get with
  | b :: rest =>
    if b = 0x2b then
      set rest
      return false
    else if b = minus then
      set rest
      return true
    else return false
  | [] => return false

/-- Takes the rest of a literal, byte by byte. -/
def literal : Bytes → ReadM Unit
  | [] => return ()
  | expected :: rest => do
    match ← get with
    | [] => fail .endInValue
    | b :: after =>
      set after
      if b = expected then literal rest else fail .expectedLiteral

/-- The rest of `null`. -/
def nullTail : Bytes := [0x75, 0x6c, 0x6c]

/-- The rest of `true`. -/
def trueTail : Bytes := [0x72, 0x75, 0x65]

/-- The rest of `false`. -/
def falseTail : Bytes := [0x61, 0x6c, 0x73, 0x65]

/-- Takes the colon behind a key. -/
def readColon : ReadM Unit := do
  match ← peek with
  | none => fail .endInObject
  | some b => if b = colon then advance else fail .expectedColon

/-- Whether an array goes on with another element, whose separator is taken. -/
def hasNextElement (first : Bool) : ReadM Bool := do
  match ← peek with
  | none => fail .endInList
  | some b =>
    if b = closeBracket then return false
    else if first then return true
    else if b = comma then
      advance
      match ← peek with
      | none => fail .endInValue
      | some b => if b = closeBracket then fail .trailingComma else return true
    else fail .expectedCommaOrBracket

/-- Whether an object goes on with another key, whose separator is taken. -/
def hasNextKey (first : Bool) : ReadM Bool := do
  match ← peek with
  | none => fail .endInObject
  | some b =>
    if b = closeBrace then return false
    else if first then
      if b = quote then return true else fail .keyNotString
    else if b = comma then
      advance
      match ← peek with
      | none => fail .endInValue
      | some b =>
        if b = quote then return true
        else if b = closeBrace then fail .trailingComma
        else fail .keyNotString
    else fail .expectedCommaOrBrace

/-- Takes the end of an array. -/
def endList : ReadM Unit := do
  match ← peek with
  | none => fail .endInList
  | some b =>
    if b = closeBracket then advance
    else if b = comma then
      advance
      if (← peek) = some closeBracket then fail .trailingComma else fail .trailingCharacters
    else fail .trailingCharacters

/-- Takes the end of an object. -/
def endObject : ReadM Unit := do
  match ← peek with
  | none => fail .endInObject
  | some b =>
    if b = closeBrace then advance
    else if b = comma then fail .trailingComma
    else fail .trailingCharacters

end PegTemplates.Json
