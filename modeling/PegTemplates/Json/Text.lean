import PegTemplates.Json.Reader

/-!
# JSON strings

A string is read from behind its opening quote: raw bytes stand for themselves,
escapes for the characters they name, and two escapes of a surrogate pair for
one character. What has been collected has to be UTF-8 when the closing quote is
met. A string that is only skipped may hold any bytes and any surrogates.
-/

namespace PegTemplates.Json

/-- Value of a hexadecimal digit. -/
def hexDigit? (b : UInt8) : Option Nat :=
  if 0x30 ≤ b ∧ b ≤ 0x39 then some (b.toNat - 0x30)
  else if 0x41 ≤ b ∧ b ≤ 0x46 then some (b.toNat - 0x41 + 10)
  else if 0x61 ≤ b ∧ b ≤ 0x66 then some (b.toNat - 0x61 + 10)
  else none

/-- Value of four hexadecimal digits. -/
def hexValue? (a b c d : UInt8) : Option Nat := do
  let a ← hexDigit? a
  let b ← hexDigit? b
  let c ← hexDigit? c
  let d ← hexDigit? d
  return ((a * 16 + b) * 16 + c) * 16 + d

/-- The byte that an escape of one letter stands for. -/
def shortEscape? (b : UInt8) : Option UInt8 :=
  if b = quote ∨ b = backslash ∨ b = 0x2f then some b
  else if b = 0x62 then some 0x08
  else if b = 0x66 then some 0x0c
  else if b = 0x6e then some 0x0a
  else if b = 0x72 then some 0x0d
  else if b = 0x74 then some 0x09
  else none

/-- The letter that starts an escape by code. -/
def codeEscape : UInt8 := 0x75

/-- First half of a surrogate pair. -/
def isLeading (code : Nat) : Bool := 0xd800 ≤ code && code ≤ 0xdbff

/-- Second half of a surrogate pair. -/
def isTrailing (code : Nat) : Bool := 0xdc00 ≤ code && code ≤ 0xdfff

/-- UTF-8 of the character of that code. -/
def codeBytes (code : Nat) : Bytes := (String.singleton (Char.ofNat code)).toUTF8.data.toList

/-- Code of the character that a surrogate pair stands for. -/
def pairCode (leading trailing : Nat) : Nat :=
  (leading - 0xd800) * 0x400 + (trailing - 0xdc00) + 0x10000

/-- The bytes up to the closing quote and what follows it. Bytes read so far are
given latest first. -/
def stringBytes (read : Bytes) : Bytes → Except Cause (Bytes × Bytes)
  | [] => .error .endInString
  | b :: rest =>
    if b = quote then .ok (read.reverse, rest)
    else if b = backslash then
      match rest with
      | [] => .error .endInString
      | e :: rest =>
        if e = codeEscape then
          match rest with
          | d1 :: d2 :: d3 :: d4 :: rest =>
            match hexValue? d1 d2 d3 d4 with
            | none => .error .invalidEscape
            | some code =>
              if isTrailing code then .error .loneSurrogate
              else if isLeading code then
                match rest with
                | [] => .error .endInString
                | b :: rest =>
                  if b ≠ backslash then .error .missingSurrogate
                  else
                    match rest with
                    | [] => .error .endInString
                    | e :: rest =>
                      if e ≠ codeEscape then .error .missingSurrogate
                      else
                        match rest with
                        | d1 :: d2 :: d3 :: d4 :: rest =>
                          match hexValue? d1 d2 d3 d4 with
                          | none => .error .invalidEscape
                          | some trailing =>
                            if isTrailing trailing then
                              let bytes := codeBytes (pairCode code trailing)
                              stringBytes (bytes.reverse ++ read) rest
                            else .error .loneSurrogate
                        | _ => .error .endInString
              else stringBytes ((codeBytes code).reverse ++ read) rest
          | _ => .error .endInString
        else
          match shortEscape? e with
          | some value => stringBytes (value :: read) rest
          | none => .error .invalidEscape
    else if b < 0x20 then .error .controlCharacter
    else stringBytes (b :: read) rest

/-- Reads a string from behind its opening quote. -/
def readString : ReadM String := do
  match stringBytes [] (← get) with
  | .error cause => fail cause
  | .ok (bytes, rest) =>
    match String.fromUTF8? ⟨bytes.toArray⟩ with
    | none => fail .invalidCodePoint
    | some text =>
      set rest
      return text

/-- What follows a string that is skipped, from behind its opening quote. -/
def afterString : Bytes → Except Cause Bytes
  | [] => .error .endInString
  | b :: rest =>
    if b = quote then .ok rest
    else if b = backslash then
      match rest with
      | [] => .error .endInString
      | e :: rest =>
        if e = codeEscape then
          match rest with
          | d1 :: d2 :: d3 :: d4 :: rest =>
            match hexValue? d1 d2 d3 d4 with
            | none => .error .invalidEscape
            | some _ => afterString rest
          | _ => .error .endInString
        else
          match shortEscape? e with
          | some _ => afterString rest
          | none => .error .invalidEscape
    else if b < 0x20 then .error .controlCharacter
    else afterString rest

/-- Skips a string from behind its opening quote. -/
def skipString : ReadM Unit := do
  match afterString (← get) with
  | .error cause => fail cause
  | .ok rest => set rest

end PegTemplates.Json
