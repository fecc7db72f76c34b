import PegTemplates.Json.Text

/-!
# Skipping JSON values

The value of a field that nobody asked for is checked for its syntax only and
forgotten. Its open arrays and objects are kept on a stack, so that no nesting
is too deep.
-/

namespace PegTemplates.Json

/-- Skips the part of a number behind its exponent mark. -/
def skipExponent : ReadM Unit := do
  let _ ← takeSign
  if (← takeDigits).isEmpty then fail .invalidNumber

/-- Skips an exponent mark and what follows it, if there is one. -/
def skipOptionalExponent : ReadM Unit := do
  match ← get with
  | b :: rest =>
    if isExponentMark b then
      set rest
      skipExponent
  | [] => return ()

/-- Skips a number behind its minus sign, if it has one. -/
def skipNumber : ReadM Unit := do
  match ← takeDigits with
  | [] => fail .invalidNumber
  | first :: more =>
    if first = zeroDigit ∧ !more.isEmpty then fail .invalidNumber
    else
      match ← get with
      | b :: rest =>
        if b = point then
          set rest
          if (← takeDigits).isEmpty then fail .invalidNumber
        skipOptionalExponent
      | [] => return ()

/-- An array or object that is open while a value is skipped. -/
inductive Frame where
  /-- An open array. -/
  | list
  /-- An open object. -/
  | object
  deriving DecidableEq, Repr, Inhabited

/-- Takes a value without parts, or the opening of an array or object, which is
given. -/
def skipScalar : ReadM (Option Frame) := do
  match ← peek with
  | none => fail .endInValue
  | some b =>
    if b = 0x6e then
      advance
      literal nullTail
      return none
    else if b = 0x74 then
      advance
      literal trueTail
      return none
    else if b = 0x66 then
      advance
      literal falseTail
      return none
    else if b = minus then
      advance
      skipNumber
      return none
    else if isDigit b then
      skipNumber
      return none
    else if b = quote then
      advance
      skipString
      return none
    else if b = openBracket then
      advance
      return some .list
    else if b = openBrace then
      advance
      return some .object
    else fail .expectedValue

/-- Skips the key and the colon in front of the next value of an object. -/
def skipKey : Frame → ReadM Unit
  | .list => return ()
  | .object => do
    match ← peek with
    | none => fail .endInObject
    | some b =>
      if b = quote then
        advance
        skipString
        readColon
      else fail .keyNotString

/-- Closes arrays and objects up to the one that goes on, and takes everything in
front of its next value. Nothing is left to skip when the stack is empty. A
comma belongs here unless the innermost one has just been opened. -/
def skipClosings : List Frame → (fresh : Bool) → ReadM (List Frame)
  | [], _ => return []
  | frame :: outer, fresh => do
    match ← peek with
    | none =>
      match frame with
      | .list => fail .endInList
      | .object => fail .endInObject
    | some b =>
      if b = comma ∧ !fresh then
        advance
        skipKey frame
        return frame :: outer
      else if (b = closeBracket ∧ frame = .list) ∨ (b = closeBrace ∧ frame = .object) then
        advance
        skipClosings outer false
      else if fresh then
        skipKey frame
        return frame :: outer
      else
        match frame with
        | .list => fail .expectedCommaOrBracket
        | .object => fail .expectedCommaOrBrace

/-- Skips values until all open arrays and objects are closed. -/
def skipValues : (bound : Nat) → List Frame → ReadM Unit
  | 0, _ => return ()
  | bound + 1, frames => do
    let left ← match ← skipScalar with
      | some frame => skipClosings (frame :: frames) true
      | none => skipClosings frames false
    match left with
    | [] => return ()
    | _ => skipValues bound left

/-- Skips one value. -/
def skipValue (bound : Nat) : ReadM Unit := skipValues bound []

end PegTemplates.Json
