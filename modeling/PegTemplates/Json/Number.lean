import PegTemplates.Json.Reader

/-!
# JSON numbers

An integer of at most 64 bits is kept exactly; every other number becomes a
float. Digits are absorbed into a 64-bit significand as long as they fit, and
the rest only counts towards the exponent. The float is the significand scaled
by a power of ten, each step rounded on its own.
-/

namespace PegTemplates.Json

/-- A number as it is kept. -/
inductive Number where
  /-- An integer of at most 64 bits. -/
  | integer (value : Int)
  /-- Any other number. -/
  | float (value : Float)

/-- Adds digits to a significand up to the first that would make it exceed 64
bits, and gives the digits left over. -/
def absorb (significand : Nat) : Bytes → Nat × Bytes
  | [] => (significand, [])
  | digit :: rest =>
    let next := significand * 10 + (digit.toNat - 0x30)
    if next < Nat.pow 2 64 then absorb next rest else (significand, digit :: rest)

/-- A power of ten as a float. -/
def powerOfTen (exponent : Nat) : Float := Float.ofScientific 1 false exponent

/-- Greatest exponent of a finite power of ten. -/
def greatestPower : Nat := 308

/-- Divides a float by a power of ten, in steps of the greatest finite power. -/
def divideByPower (value : Float) (exponent : Nat) : Float :=
  if exponent ≤ greatestPower then value / powerOfTen exponent
  else if value == 0 then value
  else divideByPower (value / powerOfTen greatestPower) (exponent - greatestPower)
termination_by exponent
decreasing_by simp only [greatestPower] at *; omega

/-- A significand scaled by a power of ten. -/
def scaled (negative : Bool) (significand : Nat) (exponent : Int) : ReadM Number := do
  let value := significand.toUInt64.toFloat
  let signed := fun (magnitude : Float) => Number.float (if negative then -magnitude else magnitude)
  if exponent < 0 then return signed (divideByPower value exponent.natAbs)
  else if exponent ≤ greatestPower then
    let product := value * powerOfTen exponent.natAbs
    if product.isInf then fail .numberOutOfRange else return signed product
  else if value == 0 then return signed value
  else fail .numberOutOfRange

/-- Greatest exponent that is told apart. -/
def greatestExponent : Nat := Nat.pow 2 31 - 1

/-- Value of a digit string. -/
def digitsValue (digits : Bytes) : Nat :=
  digits.foldl (fun value digit => value * 10 + (digit.toNat - 0x30)) 0

/-- Reads the part of a number behind its exponent mark. -/
def readExponent (negative : Bool) (significand : Nat) (start : Int) : ReadM Number := do
  let down ← takeSign
  let digits ← takeDigits
  if digits.isEmpty then
    if (← get).isEmpty then fail .endInValue else fail .invalidNumber
  else
    let value := digitsValue digits
    if greatestExponent < value then
      if significand ≠ 0 ∧ !down then fail .numberOutOfRange
      else return .float (if negative then -0.0 else 0.0)
    else scaled negative significand (if down then start - value else start + value)

/-- Reads the part of a number behind its decimal point. -/
def readFraction (negative : Bool) (significand : Nat) (start : Int) : ReadM Number := do
  let digits ← takeDigits
  if digits.isEmpty then
    if (← get).isEmpty then fail .endInValue else fail .invalidNumber
  else
    let (significand, left) := absorb significand digits
    let exponent := start - (digits.length - left.length : Nat)
    match ← get with
    | b :: rest =>
      if isExponentMark b then
        set rest
        readExponent negative significand exponent
      else scaled negative significand exponent
    | [] => scaled negative significand exponent

/-- Reads the part of a number behind its integer digits, if it has one. -/
def readTail (negative : Bool) (significand : Nat) (exponent : Int) (plain : ReadM Number) :
    ReadM Number := do
  match ← get with
  | b :: rest =>
    if b = point then
      set rest
      readFraction negative significand exponent
    else if isExponentMark b then
      set rest
      readExponent negative significand exponent
    else plain
  | [] => plain

/-- An integer that needs no more than 64 bits. Zero with a minus sign and what
lies below the signed range are floats. -/
def plainInteger (negative : Bool) (significand : Nat) : Number :=
  if !negative then .integer significand
  else if significand = 0 ∨ Nat.pow 2 63 < significand then .float (-significand.toUInt64.toFloat)
  else .integer (-significand)

/-- Reads a number behind its minus sign, if it has one. -/
def readNumber (negative : Bool) : ReadM Number := do
  let digits ← takeDigits
  match digits with
  | [] => if (← get).isEmpty then fail .endInValue else fail .invalidNumber
  | first :: more =>
    if first = zeroDigit ∧ !more.isEmpty then fail .invalidNumber
    else
      let (significand, left) := absorb 0 digits
      readTail negative significand left.length
        (if left.isEmpty then return plainInteger negative significand
          else scaled negative significand left.length)

end PegTemplates.Json
