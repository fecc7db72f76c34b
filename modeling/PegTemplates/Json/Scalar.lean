import PegTemplates.Json.Number
import PegTemplates.Json.Text

/-!
# Values of an expected kind

Readers for values without parts. A value of another kind is a fault that says
what was found; to tell, numbers, strings and literals are read first, so that
a problem of their own is met before.
-/

namespace PegTemplates.Json

/-- Stops at a number of the wrong type. -/
def wrongNumber {α : Type} (expected : String) : Number → ReadM α
  | .integer value => fail (.wrongType (.integer value) expected)
  | .float value => fail (.wrongType (.float value) expected)

/-- Stops at a value of the wrong type, which starts with the given byte. -/
def wrongType {α : Type} (expected : String) (b : UInt8) : ReadM α := do
  if b = 0x6e then
    advance
    literal nullTail
    fail (.wrongType .null expected)
  else if b = 0x74 then
    advance
    literal trueTail
    fail (.wrongType (.boolean true) expected)
  else if b = 0x66 then
    advance
    literal falseTail
    fail (.wrongType (.boolean false) expected)
  else if b = minus then
    advance
    wrongNumber expected (← readNumber true)
  else if isDigit b then wrongNumber expected (← readNumber false)
  else if b = quote then
    advance
    fail (.wrongType (.string (← readString)) expected)
  else if b = openBracket then fail (.wrongType .sequence expected)
  else if b = openBrace then fail (.wrongType .map expected)
  else fail .expectedValue

/-- The first byte of a value. -/
def firstByte : ReadM UInt8 := do
  match ← peek with
  | none => fail .endInValue
  | some b => return b

/-- Reads a string. -/
def readText : ReadM String := do
  let b ← firstByte
  if b = quote then
    advance
    readString
  else wrongType "a string" b

/-- Reads a string or `null`. -/
def readOptionalText : ReadM (Option String) := do
  match ← peek with
  | none => fail .endInValue
  | some b =>
    if b = 0x6e then
      advance
      literal nullTail
      return none
    else return some (← readText)

/-- A number as a byte. -/
def byteOfNumber : Number → ReadM UInt8
  | .integer value =>
    if 0 ≤ value ∧ value < 256 then return value.toNat.toUInt8
    else fail (.wrongValue (.integer value) "u8")
  | .float value => fail (.wrongType (.float value) "u8")

/-- Reads a byte. -/
def readByte : ReadM UInt8 := do
  let b ← firstByte
  if b = minus then
    advance
    byteOfNumber (← readNumber true)
  else if isDigit b then byteOfNumber (← readNumber false)
  else wrongType "u8" b

/-- Reads `null`. -/
def readUnit : ReadM Unit := do
  let b ← firstByte
  if b = 0x6e then
    advance
    literal nullTail
  else wrongType "unit" b

end PegTemplates.Json
