import PegTemplates.Document.Writer
import PegTemplates.Proofs.Reading.Spellings

/-!
# Written grammars

What is written for a string, a byte, an array or an object is one of its spellings, and so is
what is written for a grammar. As long as it does not nest too many arrays and objects, a written
grammar is read as it was.
-/

namespace PegTemplates.Json

/-- The bytes of a text in UTF-8. -/
def textBytes (text : String) : Bytes := text.toUTF8.data.toList

mutual

/-- Number of arrays and objects that a value nests. -/
def Value.nesting : Value → Nat
  | .null | .number _ | .text _ => 0
  | .array items => nestingOfItems items + 1
  | .object fields => nestingOfFields fields + 1

/-- Greatest number of arrays and objects that an item nests. -/
def nestingOfItems : List Value → Nat
  | [] => 0
  | item :: rest => max item.nesting (nestingOfItems rest)

/-- Greatest number of arrays and objects that the value of a field nests. -/
def nestingOfFields : List (String × Value) → Nat
  | [] => 0
  | (_, value) :: rest => max value.nesting (nestingOfFields rest)

end

section Texts

/-- Texts behind each other have their UTF-8 behind each other. -/
@[simp] theorem textBytes_append (first next : String) :
    textBytes (first ++ next) = textBytes first ++ textBytes next := by
  rw [textBytes, String.toUTF8, String.toByteArray_append, ByteArray.toList_data_append]
  rfl

/-- Joined texts have the UTF-8 of each. -/
theorem textBytes_join (texts : List String) :
    textBytes (String.join texts) = texts.flatMap textBytes := by
  rw [textBytes, utf8_flatMap, String.toList_join, List.flatMap_assoc]
  exact List.flatMap_congr fun text _ => (utf8_flatMap text).symm

/-- A text of characters has the UTF-8 of each. -/
theorem textBytes_ofList (chars : List Char) :
    textBytes (String.ofList chars) = chars.flatMap String.utf8EncodeChar := by
  rw [textBytes, utf8_flatMap, String.toList_ofList]

/-- Texts with commas between them are separated. -/
theorem separated_intercalate (texts : List String) :
    Separated (texts.map textBytes) (textBytes (",".intercalate texts)) := by
  have hfollowing : ∀ (text : String) (texts : List String), ∃ more,
      Following (texts.map textBytes) more ∧
        textBytes (",".intercalate (text :: texts)) = textBytes text ++ more := by
    intro text texts
    induction texts generalizing text with
    | nil => exact ⟨[], .nil, by simp [String.intercalate_singleton]⟩
    | cons next texts ih =>
      obtain ⟨more, hmore, htext⟩ := ih next
      refine ⟨_, .cons Blanks.nil Blanks.nil hmore, ?_⟩
      rw [String.intercalate_cons_cons, textBytes_append, textBytes_append, htext,
        List.append_assoc]
      rfl
  cases texts with
  | nil => exact .nil
  | cons text texts =>
    obtain ⟨more, hmore, htext⟩ := hfollowing text texts
    rw [htext]
    exact .cons hmore

end Texts

section Strings

/-- Digits are decided. -/
instance (value : Nat) (b : UInt8) : Decidable (HexDigit value b) :=
  inferInstanceAs (Decidable (_ ∨ _))

/-- The digits of control characters are hexadecimal. -/
theorem hexLetter_digit : ∀ value < 16, ∃ b, String.utf8EncodeChar (hexLetter value) = [b] ∧
    HexDigit value b := by
  have hall : ∀ value < 16, String.utf8EncodeChar (hexLetter value) =
      [(String.utf8EncodeChar (hexLetter value)).headD 0] ∧
      HexDigit value ((String.utf8EncodeChar (hexLetter value)).headD 0) := by decide
  exact fun value hvalue => ⟨_, hall value hvalue⟩

/-- What is written for a control character without a short escape spells it. -/
theorem control_spells {c : Char} (hcontrol : c.toNat < 0x20) :
    CharText c (textBytes ("\\u00" ++
      String.ofList [hexLetter (c.toNat / 16), hexLetter (c.toNat % 16)])) := by
  obtain ⟨high, hhigh, hhighDigit⟩ := hexLetter_digit (c.toNat / 16) (by omega)
  obtain ⟨low, hlow, hlowDigit⟩ := hexLetter_digit (c.toNat % 16) (by omega)
  have hzero : HexDigit 0 zeroDigit := by decide
  have hdigits : textBytes (String.ofList [hexLetter (c.toNat / 16), hexLetter (c.toNat % 16)]) =
      [high, low] := by
    rw [textBytes_ofList, List.flatMap_cons, List.flatMap_singleton, hhigh, hlow]
    rfl
  rw [textBytes_append, hdigits]
  exact .code ⟨0, 0, c.toNat / 16, c.toNat % 16, zeroDigit, zeroDigit, high, low, hzero, hzero,
    hhighDigit, hlowDigit, rfl, by omega⟩

/-- What is written for a character spells it. -/
theorem escapedChar_spells (c : Char) : CharText c (textBytes (escapedChar c)) := by
  rw [escapedChar]
  split_ifs with hquote hbackslash h3 h4 h5 h6 h7 hcontrol
  · exact .short (show (quote, c) ∈ shortEscapes by subst c; decide)
  · exact .short (show (backslash, c) ∈ shortEscapes by subst c; decide)
  · exact .short (show (0x62, c) ∈ shortEscapes by subst c; decide)
  · exact .short (show (0x66, c) ∈ shortEscapes by subst c; decide)
  · exact .short (show (0x6e, c) ∈ shortEscapes by subst c; decide)
  · exact .short (show (0x72, c) ∈ shortEscapes by subst c; decide)
  · exact .short (show (0x74, c) ∈ shortEscapes by subst c; decide)
  · exact control_spells hcontrol
  · have hraw : textBytes (String.singleton c) = String.utf8EncodeChar c := by
      rw [textBytes, String.toUTF8, String.toByteArray_singleton, List.utf8Encode_singleton,
        List.toList_data_toByteArray]
    rw [hraw]
    exact .raw hquote hbackslash (Nat.not_lt.mp hcontrol)

/-- What is written for a string spells it. -/
theorem stringText_spells (value : String) : StringText value (textBytes (stringText value)) := by
  refine ⟨(value.toList.map escapedChar).map textBytes, ?_, ?_⟩
  · rw [List.forall₂_map_right_iff, List.forall₂_map_right_iff]
    exact List.forall₂_same.mpr fun c _ => escapedChar_spells c
  · rw [stringText, textBytes_append, textBytes_append, textBytes_join, List.flatMap_def]
    rfl

end Strings

section Values

/-- What is written for a byte is its number. -/
theorem byte_spells (value : UInt8) : ByteText value (textBytes (toString value.toNat)) := by
  have hall : ∀ n < 256, ((Nat.toDigits 10 n).flatMap String.utf8EncodeChar ≠ [] ∧
      ((Nat.toDigits 10 n).flatMap String.utf8EncodeChar).all isDigit = true) ∧
      (((Nat.toDigits 10 n).flatMap String.utf8EncodeChar).head? = some zeroDigit →
        (Nat.toDigits 10 n).flatMap String.utf8EncodeChar = [zeroDigit]) ∧
      digitsValue ((Nat.toDigits 10 n).flatMap String.utf8EncodeChar) = n := by decide +kernel
  have htext : textBytes (toString value.toNat) =
      (Nat.toDigits 10 value.toNat).flatMap String.utf8EncodeChar := textBytes_ofList _
  obtain ⟨⟨hne, hdigits⟩, hzero, hvalue⟩ := hall value.toNat value.toNat_lt
  rw [htext]
  exact ⟨⟨⟨hne, List.all_eq_true.mp hdigits⟩, hzero⟩, hvalue⟩

/-- Compact items are those of each item. -/
theorem compactItems_eq_map (items : List Value) :
    compactItems items = items.map Value.compact := by
  induction items with
  | nil => rfl
  | cons item items ih => rw [compactItems, ih, List.map_cons]

/-- Compact fields are the name and the value of each field. -/
theorem compactFields_eq_map (fields : List (String × Value)) :
    compactFields fields =
      fields.map fun field => stringText field.1 ++ ":" ++ field.2.compact := by
  induction fields with
  | nil => rfl
  | cons field fields ih => rw [compactFields, ih, List.map_cons]

/-- Nothing has to stand at the seams of an array or object. -/
theorem Enclosed.compact {opening closing : UInt8} {inside text : Bytes}
    (htext : text = opening :: (inside ++ [closing])) : Enclosed opening closing inside text :=
  ⟨[], [], Blanks.nil, Blanks.nil, htext⟩

/-- Nothing has to stand around the colon of a member. -/
theorem MemberText.compact {member : String × Bytes} {key text : Bytes}
    (hkey : StringText member.1 key) (htext : text = key ++ colon :: member.2) :
    MemberText StringText member text :=
  ⟨key, [], [], hkey, Blanks.nil, Blanks.nil, htext⟩

/-- Texts between brackets are an array of them. -/
theorem brackets_spell (texts : List String) :
    ArrayText (texts.map textBytes) (textBytes ("[" ++ ",".intercalate texts ++ "]")) := by
  refine ⟨_, separated_intercalate texts, .compact ?_⟩
  rw [textBytes_append, textBytes_append]
  rfl

/-- A name and a text as they stand between the braces of an object. -/
def writtenMember (member : String × String) : String := stringText member.1 ++ ":" ++ member.2

/-- Names and texts between braces are an object with them. -/
theorem braces_spell (members : List (String × String)) :
    ObjectText StringText (members.map fun member => (member.1, textBytes member.2))
      (textBytes ("\x7b" ++ ",".intercalate (members.map writtenMember) ++ "\x7d")) := by
  refine ⟨_, _, ?_, separated_intercalate (members.map writtenMember), .compact ?_⟩
  · rw [List.map_map, List.forall₂_map_left_iff, List.forall₂_map_right_iff]
    refine List.forall₂_same.mpr fun member _ => .compact (stringText_spells member.1) ?_
    rw [Function.comp_apply, writtenMember, textBytes_append, textBytes_append, List.append_assoc]
    rfl
  · rw [textBytes_append, textBytes_append]
    rfl

/-- What is written for an array is an array of what is written for the items. -/
theorem array_spells (items : List Value) :
    ArrayText (items.map fun item => textBytes item.compact)
      (textBytes (Value.array items).compact) := by
  have harray := brackets_spell (items.map Value.compact)
  rwa [List.map_map, ← compactItems_eq_map] at harray

/-- What is written for an object is an object of what is written for the fields. -/
theorem object_spells (fields : List (String × Value)) :
    ObjectText StringText (fields.map fun field => (field.1, textBytes field.2.compact))
      (textBytes (Value.object fields).compact) := by
  have hobject := braces_spell (fields.map fun field => (field.1, field.2.compact))
  rw [List.map_map, List.map_map] at hobject
  rw [Value.compact, compactFields_eq_map]
  exact hobject

end Values

end PegTemplates.Json

namespace PegTemplates.Document

open Json

section Levels

variable {content : Nat → Bytes → Prop} {text : Bytes} {nested room : Nat}

/-- What nests less has a level to spare. -/
theorem Deeper.of_lt (hnested : nested + 1 ≤ room)
    (hcontent : ∀ less, nested ≤ less → content less text) : Deeper content room text :=
  ⟨room - 1, by omega, hcontent _ (by omega)⟩

/-- What is written for a variant with content is its object. -/
theorem variantValue_spells {variant : Variant} {value : Value}
    (hnesting : (variantValue variant value).nesting ≤ room)
    (hcontent : ∀ less, value.nesting ≤ less → content less (textBytes value.compact)) :
    KeyedText variant content room (textBytes (variantValue variant value).compact) := by
  have hnested : value.nesting + 1 ≤ room := by
    simpa [variantValue, Value.nesting, nestingOfFields] using hnesting
  exact Deeper.of_lt hnested fun less hless =>
    ⟨_, hcontent less hless, object_spells [(variant.name, value)]⟩

/-- What is written for a record is an object with its fields. -/
theorem record_spells {names : List String} (fields : List (String × Value))
    (hknown : ∀ field ∈ fields, field.1 ∈ names) :
    RecordText names (fields.map fun field => (field.1, textBytes field.2.compact))
      (textBytes (Value.object fields).compact) := by
  have hnames : ∀ member ∈ fields.map fun field => (field.1, textBytes field.2.compact),
      member.1 ∈ names := by
    intro member hmember
    obtain ⟨field, hfield, rfl⟩ := List.mem_map.mp hmember
    exact hknown field hfield
  refine .inl ⟨_, object_spells fields, ?_, fun member hmember hname => ?_⟩
  · rw [List.filter_eq_self.mpr fun member hmember => decide_eq_true (hnames member hmember)]
  · exact absurd (hnames member hmember) hname

/-- What is written for a label gives it. -/
theorem labelValue_spells (label : Option String) :
    LabelFields label [("label", textBytes (labelValue label).compact)] := by
  refine .inr ⟨_, ?_, rfl⟩
  cases label with
  | none => rfl
  | some label => exact stringText_spells label

end Levels

mutual

/-- What is written for an expression spells it, if it does not nest too much. -/
theorem exprValue_spells (expr : Expr) {room : Nat}
    (hnesting : (exprValue expr).nesting ≤ room) :
    ExprText expr room (textBytes (exprValue expr).compact) :=
  match expr with
  | .empty => .inl (stringText_spells _)
  | .beginCapture => .inl (stringText_spells _)
  | .endCapture => .inl (stringText_spells _)
  | .any => .inl (stringText_spells _)
  | .byte value => variantValue_spells hnesting fun _ _ => byte_spells value
  | .nonTerminal name => variantValue_spells hnesting fun _ _ => stringText_spells name
  | .tag name => variantValue_spells hnesting fun _ _ => stringText_spells name
  | .optional inner => variantValue_spells hnesting fun _ => exprValue_spells inner
  | .zeroOrMore inner => variantValue_spells hnesting fun _ => exprValue_spells inner
  | .oneOrMore inner => variantValue_spells hnesting fun _ => exprValue_spells inner
  | .followedBy inner => variantValue_spells hnesting fun _ => exprValue_spells inner
  | .notFollowedBy inner => variantValue_spells hnesting fun _ => exprValue_spells inner
  | .sequence items => variantValue_spells hnesting fun _ hdeeper =>
      .of_lt hdeeper fun _ hitems => ⟨_, exprValues_spell items hitems, array_spells _⟩
  | .choice branches => variantValue_spells hnesting fun _ hdeeper =>
      .of_lt hdeeper fun _ hitems => ⟨_, exprValues_spell branches hitems, array_spells _⟩
  | .byteSet bytes => by
    refine variantValue_spells hnesting fun _ hdeeper => .of_lt hdeeper fun _ _ => ?_
    refine ⟨_, ?_, array_spells _⟩
    rw [List.map_map, List.forall₂_map_right_iff]
    exact List.forall₂_same.mpr fun value _ => byte_spells value
  | .fold label => by
    refine variantValue_spells hnesting fun _ hdeeper => .of_lt hdeeper fun _ _ => ?_
    exact ⟨_, labelValue_spells label, record_spells [("label", labelValue label)] (by simp)⟩
  | .link label inner => by
    refine variantValue_spells hnesting fun _ hdeeper => .of_lt hdeeper fun _ hfields => ?_
    have hinner : (exprValue inner).nesting ≤ _ := Nat.le_trans (by
      simp only [nestingOfFields]
      omega) hfields
    exact ⟨_, _, labelValue_spells label, exprValue_spells inner hinner,
      record_spells [("label", labelValue label), ("inner", exprValue inner)] (by simp)⟩

/-- What is written for expressions spells them, if none of it nests too much. -/
theorem exprValues_spell (exprs : List Expr) {room : Nat}
    (hnesting : nestingOfItems (exprValues exprs) ≤ room) :
    ExprTexts exprs room ((exprValues exprs).map fun value => textBytes value.compact) :=
  match exprs with
  | [] => rfl
  | expr :: exprs => by
    have hboth : (exprValue expr).nesting ≤ room ∧ nestingOfItems (exprValues exprs) ≤ room :=
      Nat.max_le.mp hnesting
    exact ⟨_, _, exprValue_spells expr hboth.1, exprValues_spell exprs hboth.2, rfl⟩

end

/-- What is written for a rule spells it, if it does not nest too much. -/
theorem ruleValue_spells (rule : Rule) {room : Nat} (hnesting : (ruleValue rule).nesting ≤ room) :
    RuleText rule room (textBytes (ruleValue rule).compact) := by
  have hexpr : (exprValue rule.expr).nesting + 1 ≤ room := by
    simpa [ruleValue, Value.nesting, nestingOfFields] using hnesting
  exact .of_lt hexpr fun _ hbody => ⟨_, _, stringText_spells rule.name,
    exprValue_spells rule.expr hbody,
    record_spells [("name", .text rule.name), ("expr", exprValue rule.expr)] (by simp)⟩

/-- Items nest as much as the one that nests most. -/
theorem nestingOfItems_le_iff {items : List Value} {room : Nat} :
    nestingOfItems items ≤ room ↔ ∀ item ∈ items, item.nesting ≤ room := by
  induction items with
  | nil => simp [nestingOfItems]
  | cons first items ih => rw [nestingOfItems, Nat.max_le, ih, List.forall_mem_cons]

/-- What is written for a grammar spells it, if it does not nest too much. -/
theorem grammarValue_spells (grammar : Grammar) {room : Nat}
    (hnesting : (grammarValue grammar).nesting ≤ room) :
    GrammarText grammar room (textBytes (grammarValue grammar).compact) := by
  have hrules : nestingOfItems (grammar.rules.map ruleValue) + 1 + 1 ≤ room := by
    simpa [grammarValue, Value.nesting, nestingOfFields] using hnesting
  refine .of_lt hrules fun _ hlist => ⟨_, .of_lt hlist fun less hitems => ?_,
    record_spells [("rules", .array (grammar.rules.map ruleValue))] (by simp)⟩
  refine ⟨_, ?_, array_spells _⟩
  rw [List.map_map, List.forall₂_map_right_iff]
  refine List.forall₂_same.mpr fun rule hrule => ruleValue_spells rule ?_
  exact nestingOfItems_le_iff.mp hitems _ (List.mem_map_of_mem hrule)

/-- Every spelling of a grammar loads to the grammar, whatever blanks, escapes, unknown fields and
orders of fields it uses and whatever stands behind it. In particular a written grammar loads to
what it was, as long as it nests at most 127 arrays and objects. -/
theorem loads_every_spelling (grammar : Grammar) :
    (∀ text, Spells grammar text → ofText text = .ok grammar) ∧
      ((grammarValue grammar).nesting ≤ 127 → ofText (toText grammar) = .ok grammar) := by
  refine ⟨fun text hspells => hspells.read, fun hnesting => Spells.read ?_⟩
  exact ⟨[], _, [], Blanks.nil, grammarValue_spells grammar hnesting,
    (List.append_nil _).symm⟩

/-- A grammar loads from an object with an unknown field in front, with an escaped name in a rule
that is an array, with a variant as an object, and with text behind it. It loads from what is
written for it, too. -/
theorem loads_every_spelling_any :
    ofText " \x7b\"x\":1,\"rules\":[[\"\\u0052\",\x7b\"any\":null\x7d]]\x7d ." =
        .ok ⟨[⟨"R", .any⟩]⟩ ∧
      ofText (toText ⟨[⟨"R", .any⟩]⟩) = .ok ⟨[⟨"R", .any⟩]⟩ := by
  have hany : ExprText .any 124 (textBytes "\x7b\"any\":null\x7d") :=
    .inr ⟨123, rfl, nullText, rfl, [textBytes "\"any\":null"], _,
      .cons (.compact (stringText_spells "any") (by decide +kernel)) .nil, .cons .nil,
      .compact (by decide +kernel)⟩
  have hname : StringText "R" (textBytes "\"\\u0052\"") :=
    ⟨[textBytes "\\u0052"], .cons (.code ⟨0, 0, 5, 2, 0x30, 0x30, 0x35, 0x32, by decide +kernel⟩)
      .nil, by decide +kernel⟩
  have hrule : RuleText ⟨"R", .any⟩ 125 (textBytes "[\"\\u0052\",\x7b\"any\":null\x7d]") :=
    ⟨124, rfl, _, _, hname, hany, .inr ⟨List.prefix_refl _, _,
      .cons (.cons Blanks.nil Blanks.nil .nil), .compact (by decide +kernel)⟩⟩
  have hone : Whole [0x31] :=
    ⟨⟨List.cons_ne_nil _ _, List.forall_mem_singleton.mpr (by decide)⟩, fun h => by cases h⟩
  have hunknown : AnyValue (textBytes "1") :=
    .number ⟨[], [0x31], [], [], .inl rfl, hone, .inl rfl, .inl rfl, by decide +kernel⟩
  have hobject : ObjectText StringText [("x", textBytes "1"),
      ("rules", textBytes "[[\"\\u0052\",\x7b\"any\":null\x7d]]")]
      (textBytes "\x7b\"x\":1,\"rules\":[[\"\\u0052\",\x7b\"any\":null\x7d]]\x7d") :=
    ⟨[textBytes "\"x\":1", textBytes "\"rules\":[[\"\\u0052\",\x7b\"any\":null\x7d]]"], _,
      .cons (.compact (stringText_spells "x") (by decide +kernel))
        (.cons (.compact (stringText_spells "rules") (by decide +kernel)) .nil),
      .cons (.cons Blanks.nil Blanks.nil .nil), .compact (by decide +kernel)⟩
  have hgrammar : GrammarText ⟨[⟨"R", .any⟩]⟩ 127
      (textBytes "\x7b\"x\":1,\"rules\":[[\"\\u0052\",\x7b\"any\":null\x7d]]\x7d") := by
    refine ⟨126, rfl, _, ⟨125, rfl, [_], .cons hrule .nil, _, .cons .nil,
      .compact (by decide +kernel)⟩, .inl ⟨_, hobject, List.Perm.refl _, ?_⟩⟩
    intro member hmember hname
    rcases List.mem_pair.mp hmember with rfl | rfl
    · exact hunknown
    · exact absurd List.mem_cons_self hname
  have hlead : Blanks [0x20] := List.forall_mem_singleton.mpr (by decide)
  exact ⟨(loads_every_spelling _).1 _ ⟨[0x20], _, [0x20, 0x2e], hlead, hgrammar, by decide +kernel⟩,
    (loads_every_spelling _).2 (by decide)⟩

end PegTemplates.Document
