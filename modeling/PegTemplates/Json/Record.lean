import PegTemplates.Json.Scalar
import PegTemplates.Json.Skip

/-!
# Arrays and records

A list is an array of values of one kind. A record is written as an object with
named fields in any order, or as an array of all fields in their declared order.
Unknown fields of an object are skipped; a known one may occur once only.
-/

namespace PegTemplates.Json

/-- Reads elements up to the end of the array, which is left. -/
def elements {α : Type} (read : ReadM α) : (bound : Nat) → (index : Nat) → ReadM (List α)
  | 0, _ => return []
  | bound + 1, index => do
    if ← hasNextElement (index = 0) then
      let value ← within (.position index) read
      return value :: (← elements read bound (index + 1))
    else return []

/-- Takes an opening and reads what is behind it, unless the limit of nesting has
been reached. -/
def descend {α : Type} (deeper : Option (ReadM α)) : ReadM α := do
  match deeper with
  | none => fail .tooDeep
  | some read =>
    advance
    read

/-- Reads an array of values. -/
def readList {α : Type} (bound : Nat) (deeper : Option (ReadM α)) : ReadM (List α) := do
  let b ← firstByte
  if b = openBracket then
    descend (deeper.map fun read => do
      let values ← elements read bound 0
      endList
      return values)
  else wrongType "a sequence" b

/-- One field of a record that is read into a partial record of type `σ`. -/
structure Field (σ : Type) where
  /-- Name of the field. -/
  name : String
  /-- Whether the field may be left out. -/
  hasDefault : Bool
  /-- Whether the field has been read. -/
  filled : σ → Bool
  /-- Reads the value of the field. -/
  read : σ → ReadM σ

/-- Format of a record: the fields in declared order, and how the record is made
from what has been read. -/
structure RecordFormat (σ α : Type) where
  /-- Fields in declared order. -/
  fields : List (Field σ)
  /-- Nothing read. -/
  start : σ
  /-- The record, or the name of the first missing field. -/
  finish : σ → Except String α

/-- Number of fields as it is worded. -/
def elementCount (count : Nat) : String :=
  if count = 1 then "1 element" else s!"{count} elements"

/-- Reads the fields of a record written as an array. -/
def arrayFields {σ : Type} (expected : String) : List (Field σ) → Nat → σ → ReadM σ
  | [], _, partialRecord => return partialRecord
  | field :: rest, index, partialRecord => do
    if ← hasNextElement (index = 0) then
      let after ← within (.position index) (field.read partialRecord)
      arrayFields expected rest (index + 1) after
    else if field.hasDefault then arrayFields expected rest (index + 1) partialRecord
    else fail (.wrongLength index expected)

/-- Reads a key from behind the separator, if there is one more. -/
def nextKey (first : Bool) : ReadM (Option String) := do
  if ← hasNextKey first then
    advance
    return some (← readString)
  else return none

/-- Reads the fields of a record written as an object, up to its end. A problem with
a key is met below the record at a place without a name, one with the colon behind
it at the record, and one with the value at the field. -/
def objectFields {σ : Type} (whole : Nat) (fields : List (Field σ)) :
    (bound : Nat) → (first : Bool) → σ → ReadM σ
  | 0, _, partialRecord => return partialRecord
  | bound + 1, first, partialRecord => do
    match ← within .unknown (nextKey first) with
    | none => return partialRecord
    | some key =>
      match fields.find? (·.name == key) with
      | none =>
        readColon
        within (.field key) (skipValue whole)
        objectFields whole fields bound false partialRecord
      | some field =>
        if field.filled partialRecord then fail (.duplicateField key)
        else
          readColon
          let after ← within (.field key) (field.read partialRecord)
          objectFields whole fields bound false after

/-- The record made from what has been read. -/
def RecordFormat.complete {σ α : Type} (format : RecordFormat σ α) (partialRecord : σ) :
    ReadM α := do
  match format.finish partialRecord with
  | .ok record => return record
  | .error name => fail (.missingField name)

/-- Reads a record that messages call `expected`. There is no format for what is
one level deeper when the limit of nesting has been reached. -/
def readRecord {σ α : Type} (bound : Nat) (expected : String)
    (deeper : Option (RecordFormat σ α)) : ReadM α := do
  let b ← firstByte
  if b = openBracket then
    descend (deeper.map fun format => do
      let partialRecord ← arrayFields s!"{expected} with {elementCount format.fields.length}"
        format.fields 0 format.start
      let record ← format.complete partialRecord
      endList
      return record)
  else if b = openBrace then
    descend (deeper.map fun format => do
      let partialRecord ← objectFields bound format.fields bound true format.start
      let record ← format.complete partialRecord
      endObject
      return record)
  else wrongType expected b

end PegTemplates.Json
