import Mathlib.Data.List.Forall2
import Mathlib.Tactic.SplitIfs
import PegTemplates.Proofs.Reading.Steps

/-!
# Spellings of strings

A character of a string stands for itself in UTF-8, or is written as an escape of one letter, as
an escape of its code in hexadecimal digits of either case, or as two escapes of a surrogate pair.
Every spelling of a string is read as the string. A string that is only skipped may hold any raw
bytes that are no control characters, and escapes of any codes.
-/

namespace PegTemplates.Json

/-- Whether a byte is a hexadecimal digit of that value, in either case. -/
def HexDigit (value : Nat) (b : UInt8) : Prop :=
  value < 10 ∧ b.toNat = 0x30 + value ∨
    10 ≤ value ∧ value < 16 ∧ (b.toNat = 0x37 + value ∨ b.toNat = 0x57 + value)

/-- Whether a text consists of four hexadecimal digits of that value. -/
def HexText (code : Nat) (text : Bytes) : Prop :=
  ∃ (v1 v2 v3 v4 : Nat) (d1 d2 d3 d4 : UInt8),
    HexDigit v1 d1 ∧ HexDigit v2 d2 ∧ HexDigit v3 d3 ∧ HexDigit v4 d4 ∧
    text = [d1, d2, d3, d4] ∧ code = v1 * 0x1000 + v2 * 0x100 + v3 * 0x10 + v4

/-- Letters of short escapes with the characters they stand for. -/
def shortEscapes : List (UInt8 × Char) :=
  [(quote, '"'), (backslash, '\\'), (0x2f, '/'), (0x62, '\x08'), (0x66, '\x0c'), (0x6e, '\n'),
    (0x72, '\r'), (0x74, '\t')]

/-- Spellings of a character in a string. -/
inductive CharText (c : Char) : Bytes → Prop where
  /-- The character stands for itself. -/
  | raw (hquote : c ≠ '"') (hbackslash : c ≠ '\\') (hcontrol : 0x20 ≤ c.toNat) :
      CharText c (String.utf8EncodeChar c)
  /-- An escape of one letter. -/
  | short {letter : UInt8} (hletter : (letter, c) ∈ shortEscapes) :
      CharText c [backslash, letter]
  /-- An escape of the code. -/
  | code {digits : Bytes} (hdigits : HexText c.toNat digits) :
      CharText c (backslash :: codeEscape :: digits)
  /-- Two escapes of a surrogate pair. -/
  | pair {leading trailing : Nat} {first second : Bytes} (hfirst : HexText leading first)
      (hsecond : HexText trailing second) (hleading : 0xd800 ≤ leading ∧ leading < 0xdc00)
      (htrailing : 0xdc00 ≤ trailing ∧ trailing < 0xe000)
      (hcode : c.toNat = 0x10000 + (leading - 0xd800) * 0x400 + (trailing - 0xdc00)) :
      CharText c (backslash :: codeEscape :: (first ++ backslash :: codeEscape :: second))

/-- Whether a text is a spelling of a string. -/
def StringText (value : String) (text : Bytes) : Prop :=
  ∃ pieces, List.Forall₂ CharText value.toList pieces ∧ text = quote :: (pieces.flatten ++ [quote])

section Escapes

variable {read rest : Bytes}

/-- A hexadecimal digit has its value. -/
theorem HexDigit.value {value : Nat} {b : UInt8} (hdigit : HexDigit value b) :
    hexDigit? b = some value := by
  simp only [hexDigit?, UInt8.le_iff_toNat_le, UInt8.reduceToNat]
  rcases hdigit with ⟨hvalue, hb⟩ | ⟨hlow, hvalue, hb | hb⟩
  · rw [if_pos (by omega)]
    congr 1
    omega
  · rw [if_neg (by omega), if_pos (by omega)]
    congr 1
    omega
  · rw [if_neg (by omega), if_neg (by omega), if_pos (by omega)]
    congr 1
    omega

/-- Four hexadecimal digits have their value. -/
theorem HexText.value {code : Nat} {text : Bytes} (htext : HexText code text) :
    ∃ d1 d2 d3 d4, text = [d1, d2, d3, d4] ∧ hexValue? d1 d2 d3 d4 = some code := by
  obtain ⟨v1, v2, v3, v4, d1, d2, d3, d4, h1, h2, h3, h4, rfl, rfl⟩ := htext
  refine ⟨d1, d2, d3, d4, rfl, ?_⟩
  simp only [hexValue?, h1.value, h2.value, h3.value, h4.value, Option.bind_eq_bind,
    Option.bind_some, Option.pure_def, Option.some.injEq]
  omega

/-- A string ends at a quote. -/
theorem stringBytes_quote (read rest : Bytes) :
    stringBytes read (quote :: rest) = .ok (read.reverse, rest) := by
  rw [stringBytes.eq_def]
  exact if_pos rfl

/-- A raw byte is collected. -/
theorem stringBytes_raw {b : UInt8} (hquote : b ≠ quote) (hbackslash : b ≠ backslash)
    (hcontrol : ¬ b < 0x20) : stringBytes read (b :: rest) = stringBytes (b :: read) rest := by
  rw [stringBytes.eq_def]
  exact (if_neg hquote).trans ((if_neg hbackslash).trans (if_neg hcontrol))

/-- Raw bytes are collected, the latest in front. -/
theorem stringBytes_raws {bytes : Bytes}
    (hbytes : ∀ b ∈ bytes, b ≠ quote ∧ b ≠ backslash ∧ ¬ b < 0x20) :
    stringBytes read (bytes ++ rest) = stringBytes (bytes.reverse ++ read) rest := by
  induction bytes generalizing read with
  | nil => rfl
  | cons b bytes ih =>
    obtain ⟨⟨hquote, hbackslash, hcontrol⟩, hmore⟩ := List.forall_mem_cons.mp hbytes
    rw [List.cons_append, stringBytes_raw hquote hbackslash hcontrol, ih hmore,
      List.reverse_cons, List.append_assoc, List.cons_append, List.nil_append]

/-- The byte of an escape of one letter is collected. -/
theorem stringBytes_short {letter value : UInt8} (hletter : letter ≠ codeEscape)
    (hvalue : shortEscape? letter = some value) :
    stringBytes read (backslash :: letter :: rest) = stringBytes (value :: read) rest := by
  rw [stringBytes.eq_def]
  simp only [hvalue, if_neg hletter, if_neg (show backslash ≠ quote by decide), if_true]

/-- The bytes of an escaped code are collected, unless it is a surrogate. -/
theorem stringBytes_code {code : Nat} {digits : Bytes} (hdigits : HexText code digits)
    (hleading : isLeading code = false) (htrailing : isTrailing code = false) :
    stringBytes read (backslash :: codeEscape :: (digits ++ rest)) =
      stringBytes ((codeBytes code).reverse ++ read) rest := by
  obtain ⟨d1, d2, d3, d4, rfl, hvalue⟩ := hdigits.value
  rw [stringBytes.eq_def]
  simp only [List.cons_append, List.nil_append, hvalue, hleading, htrailing,
    if_neg (show backslash ≠ quote by decide), if_true, Bool.false_eq_true, if_false]

/-- The bytes of an escaped surrogate pair are collected. -/
theorem stringBytes_pair {leading trailing : Nat} {first second : Bytes}
    (hfirst : HexText leading first) (hsecond : HexText trailing second)
    (hleading : isLeading leading = true) (hother : isTrailing leading = false)
    (htrailing : isTrailing trailing = true) :
    stringBytes read
        (backslash :: codeEscape :: (first ++ backslash :: codeEscape :: (second ++ rest))) =
      stringBytes ((codeBytes (pairCode leading trailing)).reverse ++ read) rest := by
  obtain ⟨d1, d2, d3, d4, rfl, hfirstValue⟩ := hfirst.value
  obtain ⟨e1, e2, e3, e4, rfl, hsecondValue⟩ := hsecond.value
  rw [stringBytes.eq_def]
  simp only [List.cons_append, List.nil_append, hfirstValue, hsecondValue, hleading, hother,
    htrailing, if_neg (show backslash ≠ quote by decide), ne_eq, not_true_eq_false, if_true,
    if_false, Bool.false_eq_true]

end Escapes

section Characters

variable {c : Char} {read rest piece : Bytes}

/-- The bytes of a code are those of its character. -/
theorem codeBytes_toNat (c : Char) : codeBytes c.toNat = String.utf8EncodeChar c := by
  rw [codeBytes, Char.ofNat_toNat, String.toUTF8, String.toByteArray_singleton,
    List.utf8Encode_singleton, List.toList_data_toByteArray]

/-- A character is no surrogate. -/
theorem char_not_surrogate (c : Char) :
    isLeading c.toNat = false ∧ isTrailing c.toNat = false := by
  have hvalid : c.toNat < 0xd800 ∨ 0xdfff < c.toNat ∧ c.toNat < 0x110000 := c.valid
  simp only [isLeading, isTrailing, Bool.and_eq_false_iff, decide_eq_false_iff_not]
  omega

/-- A byte of a character has its code or lies above the codes of one byte. -/
theorem toNat_of_mem_utf8EncodeChar {b : UInt8} (hb : b ∈ String.utf8EncodeChar c) :
    b.toNat = c.toNat ∨ 0x80 ≤ b.toNat := by
  change b.toNat = c.val.toNat ∨ _
  rw [String.utf8EncodeChar.eq_def] at hb
  dsimp only at hb
  split_ifs at hb with h1 h2 h3 <;>
    simp only [List.mem_cons, List.not_mem_nil, or_false] at hb
  · subst hb
    left
    exact UInt8.toNat_ofNat_of_lt' (by simp only [UInt8.size]; omega)
  all_goals
    right
    rcases hb with rfl | rfl | rfl | rfl <;>
      rw [UInt8.toNat_ofNat_of_lt' (by simp only [UInt8.size]; omega)] <;> omega

/-- No byte of a character above the control characters is a quote, a backslash or a control
character, unless the character is. -/
theorem utf8EncodeChar_plain (hquote : c ≠ '"') (hbackslash : c ≠ '\\')
    (hcontrol : 0x20 ≤ c.toNat) {b : UInt8} (hb : b ∈ String.utf8EncodeChar c) :
    b ≠ quote ∧ b ≠ backslash ∧ ¬ b < 0x20 := by
  have hbyte := toNat_of_mem_utf8EncodeChar hb
  refine ⟨?_, ?_, ?_⟩
  · rintro rfl
    exact hquote (Char.toNat_inj.mp (hbyte.resolve_right (by decide)).symm)
  · rintro rfl
    exact hbackslash (Char.toNat_inj.mp (hbyte.resolve_right (by decide)).symm)
  · rw [UInt8.lt_iff_toNat_lt]
    change ¬ b.toNat < 0x20
    omega

/-- A short escape has the one byte of its character for a value. -/
theorem shortEscapes_value {escape : UInt8 × Char} (hescape : escape ∈ shortEscapes) :
    escape.1 ≠ codeEscape ∧ ∃ value, shortEscape? escape.1 = some value ∧
      String.utf8EncodeChar escape.2 = [value] := by
  have hall : ∀ each ∈ shortEscapes, each.1 ≠ codeEscape ∧
      ∃ value, shortEscape? each.1 = some value ∧ String.utf8EncodeChar each.2 = [value] := by
    simp only [shortEscapes, List.forall_mem_cons]
    exact ⟨⟨by decide, _, rfl, rfl⟩, ⟨by decide, _, rfl, rfl⟩, ⟨by decide, _, rfl, rfl⟩,
      ⟨by decide, _, rfl, rfl⟩, ⟨by decide, _, rfl, rfl⟩, ⟨by decide, _, rfl, rfl⟩,
      ⟨by decide, _, rfl, rfl⟩, ⟨by decide, _, rfl, rfl⟩, List.forall_mem_nil _⟩
  exact hall escape hescape

/-- Every spelling of a character is collected as its UTF-8. -/
theorem CharText.collected (htext : CharText c piece) :
    stringBytes read (piece ++ rest) =
      stringBytes ((String.utf8EncodeChar c).reverse ++ read) rest := by
  cases htext with
  | raw hquote hbackslash hcontrol =>
    exact stringBytes_raws fun b => utf8EncodeChar_plain hquote hbackslash hcontrol
  | short hletter =>
    obtain ⟨hother, value, hvalue, hencoded⟩ := shortEscapes_value hletter
    rw [hencoded]
    exact stringBytes_short hother hvalue
  | code hdigits =>
    obtain ⟨hleading, htrailing⟩ := char_not_surrogate c
    rw [← codeBytes_toNat]
    exact stringBytes_code hdigits hleading htrailing
  | pair hfirst hsecond hleading htrailing hcode =>
    rename_i leading trailing first second
    have hpair : pairCode leading trailing = c.toNat := by
      rw [pairCode, hcode]
      omega
    rw [← codeBytes_toNat, ← hpair, List.cons_append, List.cons_append, List.append_assoc]
    refine stringBytes_pair hfirst hsecond ?_ ?_ ?_ <;>
      simp only [isLeading, isTrailing, Bool.and_eq_true, Bool.and_eq_false_iff,
        decide_eq_true_eq, decide_eq_false_iff_not] <;> omega

/-- Spellings of characters are collected as the UTF-8 of the characters. -/
theorem stringBytes_pieces {chars : List Char} {pieces : List Bytes}
    (hpieces : List.Forall₂ CharText chars pieces) :
    stringBytes read (pieces.flatten ++ quote :: rest) =
      .ok (read.reverse ++ chars.flatMap String.utf8EncodeChar, rest) := by
  induction hpieces generalizing read with
  | nil => simpa using stringBytes_quote read rest
  | cons hpiece hmore ih =>
    rw [List.flatten_cons, List.append_assoc, hpiece.collected, ih, List.reverse_append,
      List.reverse_reverse, List.append_assoc, List.flatMap_cons]

end Characters

section Strings

variable {value : String} {text : Bytes}

/-- The UTF-8 of a string is that of its characters. -/
theorem utf8_flatMap (value : String) :
    value.toUTF8.data.toList = value.toList.flatMap String.utf8EncodeChar := by
  rw [String.toUTF8, ← String.utf8Encode_toList, List.utf8Encode, List.toList_data_toByteArray]

/-- The UTF-8 of a string is read as the string. -/
theorem fromUTF8?_utf8 (value : String) :
    String.fromUTF8? ⟨value.toUTF8.data.toList.toArray⟩ = some value := by
  rw [Array.toArray_toList, String.fromUTF8?]
  exact dif_pos value.isValidUTF8

/-- A string is read from behind its opening quote. -/
theorem readString_gives {pieces : List Bytes}
    (hpieces : List.Forall₂ CharText value.toList pieces) (rest : Bytes) :
    Gives readString (pieces.flatten ++ quote :: rest) value rest := by
  refine .get_bind ?_
  rw [stringBytes_pieces hpieces, List.reverse_nil, List.nil_append, ← utf8_flatMap]
  dsimp only
  rw [fromUTF8?_utf8]
  rfl

/-- A spelling of a string begins with a quote. -/
theorem StringText.starts (htext : StringText value text) : Starts text := by
  obtain ⟨pieces, _, rfl⟩ := htext
  exact ⟨quote, _, rfl, by decide, by decide, by decide⟩

/-- Every spelling of a string is read as the string. -/
theorem StringText.takes (htext : StringText value text) : Takes readText text value := by
  refine ⟨htext.starts, fun {lead rest} hlead _ => ?_⟩
  obtain ⟨pieces, hpieces, rfl⟩ := htext
  simp only [List.cons_append, List.append_assoc, List.nil_append]
  refine (firstByte_gives hlead (by decide)).bind (.ite_pos rfl ((advance_gives _ _).bind ?_))
  exact readString_gives hpieces rest

end Strings

end PegTemplates.Json
