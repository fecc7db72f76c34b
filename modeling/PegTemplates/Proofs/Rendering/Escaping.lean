import Mathlib.Algebra.Ring.Parity
import Mathlib.Data.List.DropRight
import Mathlib.Tactic.SplitIfs
import PegTemplates.Template

/-!
# Escaped text can be read back

An escaped text is read from left to right: a backslash says that the letter behind it stands for
another character, and every other character stands for itself. The reader refuses what escaping
never writes, so it accepts exactly the escaped texts, and gives what they were made from. In an
escaped text no character with a short escape stands by itself, and the run of backslashes in
front of a quote is always odd, so that no quote can end a string in which the text is put.
-/

namespace PegTemplates

/-- The letters of escapes, each with the character that it stands for behind a backslash. -/
def escapes : List (Char × Char) :=
  [('\\', '\\'), ('"', '"'), ('\'', '\''), ('b', '\x08'), ('t', '\t'), ('n', '\n'),
    ('f', '\x0c'), ('r', '\r')]

/-- The characters that do not stand for themselves. -/
def escapedChars : List Char := escapes.map Prod.snd

/-- Reads an escaped text from left to right, where a backslash may have come before. -/
def unescapeFrom : (marked : Bool) → List Char → Option (List Char)
  | false, [] => some []
  | true, [] => none
  | true, letter :: rest => do
    let c ← escapes.lookup letter
    let read ← unescapeFrom false rest
    return c :: read
  | false, c :: rest =>
    if c = '\\' then unescapeFrom true rest
    else if c ∈ escapedChars then none
    else (unescapeFrom false rest).map (c :: ·)

/-- The text of which a text is the escaped form, if there is one. -/
def unescape? (text : String) : Option String :=
  (unescapeFrom false text.toList).map String.ofList

/-- Escaped form of bytes, one behind the other. -/
def escapeBytes (bytes : List UInt8) : String := String.join (bytes.map escapeByte)

/-- The bytes of which a text is the escaped form, if its characters stand for bytes. -/
def unescapeBytes? (text : String) : Option (List UInt8) :=
  (unescape? text).map fun read => read.toList.map Char.toUInt8

/-- The characters that escaping gives for some characters. -/
def escapedForm (chars : List Char) : List Char := chars.flatMap fun c => (escapeChar c).toList

/-- Length of the run of backslashes at the end of a text. -/
def backslashRun (text : List Char) : Nat := (text.rtakeWhile (· = '\\')).length

/-- Whether a text can stand in a string: no control character with a short escape is in it, and
the backslashes in front of each quote are odd in number. -/
structure Quotable (text : String) : Prop where
  /-- No backspace, tab, line feed, form feed or carriage return stands in the text. -/
  noControl : ∀ c ∈ text.toList, c ∉ ['\x08', '\t', '\n', '\x0c', '\r']
  /-- The backslashes in front of a quote are odd in number. -/
  quotesMarked : ∀ front mark behind, text.toList = front ++ mark :: behind →
    mark = '"' ∨ mark = '\'' → Odd (backslashRun front)

section Characters

variable {c letter : Char}

/-- A letter behind a backslash has one meaning. -/
theorem lookup_escapes (hescape : (letter, c) ∈ escapes) : escapes.lookup letter = some c := by
  have hall : ∀ escape ∈ escapes, escapes.lookup escape.1 = some escape.2 := by decide
  exact hall (letter, c) hescape

/-- A letter that has a meaning is in the list. -/
theorem mem_escapes_of_lookup (hlookup : escapes.lookup letter = some c) :
    (letter, c) ∈ escapes := by
  obtain ⟨front, behind, hsplit, _⟩ := List.lookup_eq_some_iff.mp hlookup
  rw [hsplit]
  exact List.mem_append_right _ List.mem_cons_self

/-- A character that does not stand for itself is written as its letter behind a backslash. -/
theorem escapeChar_marked (hescape : (letter, c) ∈ escapes) :
    (escapeChar c).toList = ['\\', letter] := by
  have hall : ∀ escape ∈ escapes, (escapeChar escape.2).toList = ['\\', escape.1] := by decide
  exact hall (letter, c) hescape

/-- Every other character is written as itself. -/
theorem escapeChar_plain (hplain : c ∉ escapedChars) : (escapeChar c).toList = [c] := by
  simp only [escapedChars, escapes, List.map_cons, List.map_nil, List.mem_cons, not_or] at hplain
  obtain ⟨h1, h2, h3, h4, h5, h6, h7, h8, _⟩ := hplain
  rw [escapeChar, if_neg h1, if_neg h2, if_neg h3, if_neg h4, if_neg h5, if_neg h6, if_neg h7,
    if_neg h8, String.toList_singleton]

/-- A character is written as a backslash and its letter, or as itself. -/
theorem escapeChar_cases (c : Char) :
    (∃ letter, (letter, c) ∈ escapes ∧ (escapeChar c).toList = ['\\', letter]) ∨
      c ∉ escapedChars ∧ (escapeChar c).toList = [c] := by
  by_cases hescaped : c ∈ escapedChars
  · obtain ⟨⟨letter, _⟩, hescape, rfl⟩ := List.mem_map.mp hescaped
    exact Or.inl ⟨letter, hescape, escapeChar_marked hescape⟩
  · exact Or.inr ⟨hescaped, escapeChar_plain hescaped⟩

end Characters

section Reading

/-- Characters in front are escaped in front. -/
theorem escapedForm_cons (c : Char) (chars : List Char) :
    escapedForm (c :: chars) = (escapeChar c).toList ++ escapedForm chars := List.flatMap_cons

/-- A character behind others is escaped behind them. -/
theorem escapedForm_concat (chars : List Char) (c : Char) :
    escapedForm (chars ++ [c]) = escapedForm chars ++ (escapeChar c).toList := by
  rw [escapedForm, List.flatMap_append, List.flatMap_singleton, escapedForm]

/-- The characters of an escaped text are those of each escape. -/
theorem toList_escapeText (text : String) : (escapeText text).toList = escapedForm text.toList := by
  rw [escapeText, String.toList_join, List.flatMap_map, escapedForm]

/-- Bytes are escaped as the characters of those codes. -/
theorem escapeBytes_eq (bytes : List UInt8) :
    escapeBytes bytes = escapeText (String.ofList (bytes.map Char.ofUInt8)) := by
  rw [escapeBytes, escapeText, String.toList_ofList, List.map_map]
  rfl

/-- The escaped form of a character is read as the character. -/
theorem unescapeFrom_escapeChar (c : Char) (rest : List Char) :
    unescapeFrom false ((escapeChar c).toList ++ rest) =
      (unescapeFrom false rest).map (c :: ·) := by
  rcases escapeChar_cases c with ⟨letter, hescape, hform⟩ | ⟨hplain, hform⟩
  · rw [hform, List.cons_append, List.cons_append, List.nil_append, unescapeFrom, if_pos rfl,
      unescapeFrom, lookup_escapes hescape]
    cases unescapeFrom false rest <;> rfl
  · have hbackslash : c ≠ '\\' := fun h => hplain (h ▸ by decide)
    rw [hform, List.cons_append, List.nil_append, unescapeFrom, if_neg hbackslash, if_neg hplain]

/-- An escaped text is read as what it was made from. -/
theorem unescapeFrom_escapedForm (chars : List Char) :
    unescapeFrom false (escapedForm chars) = some chars := by
  induction chars with
  | nil => rfl
  | cons c chars ih =>
    rw [escapedForm_cons, unescapeFrom_escapeChar, ih]
    rfl

/-- Whatever is read is an escaped text, with the backslash that has come before. -/
theorem escapedForm_of_unescapeFrom {marked : Bool} {text chars : List Char}
    (hread : unescapeFrom marked text = some chars) :
    (if marked then '\\' :: text else text) = escapedForm chars := by
  induction text generalizing marked chars with
  | nil =>
    cases marked with
    | false =>
      obtain rfl := Option.some.inj hread
      rfl
    | true => cases hread
  | cons c rest ih =>
    cases marked with
    | true =>
      obtain ⟨meant, hlookup, hbehind⟩ := Option.bind_eq_some_iff.mp hread
      obtain ⟨others, hothers, hchars⟩ := Option.bind_eq_some_iff.mp hbehind
      obtain rfl := Option.some.inj hchars
      rw [escapedForm_cons, escapeChar_marked (mem_escapes_of_lookup hlookup), ← ih hothers]
      rfl
    | false =>
      rw [unescapeFrom] at hread
      split_ifs at hread with hbackslash hescaped
      · subst hbackslash
        exact ih hread
      · obtain ⟨others, hothers, rfl⟩ := Option.map_eq_some_iff.mp hread
        rw [escapedForm_cons, escapeChar_plain hescaped, ← ih hothers]
        rfl

/-- A text is read exactly if it is the escaped form of what is read. -/
theorem unescape?_eq_some_iff {text read : String} :
    unescape? text = some read ↔ text = escapeText read := by
  rw [unescape?, Option.map_eq_some_iff, ← String.toList_inj, toList_escapeText]
  constructor
  · rintro ⟨chars, hread, rfl⟩
    rw [String.toList_ofList]
    exact escapedForm_of_unescapeFrom hread
  · intro htext
    exact ⟨read.toList, htext ▸ unescapeFrom_escapedForm _, String.ofList_toList⟩

/-- The escaped form of bytes is read as the bytes. -/
theorem unescapeBytes?_escapeBytes (bytes : List UInt8) :
    unescapeBytes? (escapeBytes bytes) = some bytes := by
  have hback : ∀ value : UInt8, (Char.toUInt8 ∘ Char.ofUInt8) value = value :=
    UInt8.toUInt8_toUInt32
  rw [unescapeBytes?, escapeBytes_eq, unescape?_eq_some_iff.mpr rfl, Option.map_some,
    String.toList_ofList, List.map_map, List.map_id'' hback]

end Reading

section Quotes

/-- An escaped text ends in an even number of backslashes. -/
theorem even_backslashRun (chars : List Char) : Even (backslashRun (escapedForm chars)) := by
  induction chars using List.reverseRecOn with
  | nil => exact Even.zero
  | append_singleton chars c ih =>
    rw [escapedForm_concat, backslashRun]
    rcases escapeChar_cases c with ⟨letter, _, hform⟩ | ⟨hplain, hform⟩
    · rw [hform, List.append_cons]
      by_cases hletter : letter = '\\'
      · rw [List.rtakeWhile_concat_pos _ _ _ (by simpa using hletter),
          List.rtakeWhile_concat_pos _ _ _ (by simp), List.length_append, List.length_append]
        exact (ih.add_one.add_one)
      · rw [List.rtakeWhile_concat_neg _ _ _ (by simpa using hletter)]
        exact Even.zero
    · have hbackslash : c ≠ '\\' := fun h => hplain (h ▸ by decide)
      rw [hform, List.rtakeWhile_concat_neg _ _ _ (by simpa using hbackslash)]
      exact Even.zero

/-- A backslash more makes an even run odd. -/
theorem odd_backslashRun (chars : List Char) :
    Odd (backslashRun (escapedForm chars ++ ['\\'])) := by
  rw [backslashRun, List.rtakeWhile_concat_pos _ _ _ (by simp), List.length_append]
  exact (even_backslashRun chars).add_one

/-- A quote in the escaped form of a character has a backslash in front of it. -/
theorem eq_backslash_of_quote {c mark : Char} {start behind : List Char}
    (hform : (escapeChar c).toList = start ++ mark :: behind) (hmark : mark = '"' ∨ mark = '\'') :
    start = ['\\'] := by
  have hescaped : mark ∈ escapedChars := by rcases hmark with rfl | rfl <;> decide
  have hbackslash : mark ≠ '\\' := by rcases hmark with rfl | rfl <;> decide
  rcases escapeChar_cases c with ⟨letter, _, hletter⟩ | ⟨hplain, hself⟩
  · rw [hletter] at hform
    cases start with
    | nil => exact absurd (List.cons.inj hform).1.symm hbackslash
    | cons first start =>
      obtain ⟨rfl, hrest⟩ := List.cons.inj hform
      cases start with
      | nil => rfl
      | cons next start => simp at hrest
  · rw [hself] at hform
    cases start with
    | nil =>
      obtain rfl : c = mark := (List.cons.inj hform).1
      exact absurd hescaped hplain
    | cons first start => simp at hform

/-- A quote in an escaped text has an odd number of backslashes in front of it. -/
theorem odd_of_quote {chars front behind : List Char} {mark : Char}
    (hsplit : escapedForm chars = front ++ mark :: behind) (hmark : mark = '"' ∨ mark = '\'') :
    Odd (backslashRun front) := by
  -- the quote stands in the escape of the last character or in front of it
  induction chars using List.reverseRecOn generalizing behind with
  | nil => simp [escapedForm] at hsplit
  | append_singleton chars c ih =>
    rw [escapedForm_concat] at hsplit
    rcases List.append_eq_append_iff.mp hsplit with
      ⟨start, rfl, hlast⟩ | ⟨more, hfront, hbehind⟩
    · obtain rfl := eq_backslash_of_quote hlast hmark
      exact odd_backslashRun chars
    · cases more with
      | nil =>
        have hlast : (escapeChar c).toList = [] ++ mark :: behind := hbehind.symm
        cases eq_backslash_of_quote hlast hmark
      | cons first more =>
        obtain ⟨rfl, rfl⟩ := List.cons.inj hbehind
        exact ih hfront

/-- No control character with a short escape is left by itself. -/
theorem not_control_of_mem {c source : Char} (hc : c ∈ (escapeChar source).toList) :
    c ∉ ['\x08', '\t', '\n', '\x0c', '\r'] := by
  rcases escapeChar_cases source with ⟨letter, hescape, hform⟩ | ⟨hplain, hform⟩
  · have hletters : ∀ escape ∈ escapes, escape.1 ∉ ['\x08', '\t', '\n', '\x0c', '\r'] := by decide
    rw [hform] at hc
    rcases List.mem_pair.mp hc with rfl | rfl
    · decide
    · exact hletters _ hescape
  · have hcontrols : ['\x08', '\t', '\n', '\x0c', '\r'] ⊆ escapedChars := by decide
    rw [hform, List.mem_singleton] at hc
    exact fun hcontrol => hplain (hc ▸ hcontrols hcontrol)

/-- An escaped text can stand in a string. -/
theorem quotable_escapeText (text : String) : Quotable (escapeText text) where
  noControl := by
    intro c hc
    rw [toList_escapeText] at hc
    obtain ⟨_, _, hc⟩ := List.mem_flatMap.mp hc
    exact not_control_of_mem hc
  quotesMarked := by
    intro front mark behind hsplit hmark
    rw [toList_escapeText] at hsplit
    exact odd_of_quote hsplit hmark

end Quotes

/-- One reader takes an escaped text from left to right and gives the text that it was made from,
and no other text has that escaped form; it gives the bytes that escaped bytes were made from. So
texts with the same escaped form are the same, and bytes are, too. In an escaped text no
backspace, tab, line feed, form feed or carriage return stands, and the run of backslashes in
front of a quote of either kind is odd. -/
theorem escaping_decodes :
    (∀ text, unescape? (escapeText text) = some text) ∧
      (∀ written text, unescape? written = some text ↔ written = escapeText text) ∧
      (∀ bytes, unescapeBytes? (escapeBytes bytes) = some bytes) ∧
      Function.Injective escapeText ∧ Function.Injective escapeBytes ∧
      (∀ text, Quotable (escapeText text)) ∧ ∀ bytes, Quotable (escapeBytes bytes) := by
  have htexts : ∀ text, unescape? (escapeText text) = some text :=
    fun text => unescape?_eq_some_iff.mpr rfl
  refine ⟨htexts, fun written text => unescape?_eq_some_iff, unescapeBytes?_escapeBytes, ?_, ?_,
    quotable_escapeText, fun bytes => ?_⟩
  · intro first next hsame
    exact Option.some.inj (by rw [← htexts first, hsame, htexts])
  · intro first next hsame
    exact Option.some.inj (by
      rw [← unescapeBytes?_escapeBytes first, hsame, unescapeBytes?_escapeBytes])
  · rw [escapeBytes_eq]
    exact quotable_escapeText _

end PegTemplates
