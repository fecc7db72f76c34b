import PegTemplates.Proofs.Reading.Stopping
import PegTemplates.Proofs.Reading.Writing

/-!
# Faults at their positions

A position in a grammar is a rule and a way from its body down to an expression: names of variants,
positions in lists and the body of a link. In the written form of the grammar the same way leads
to what is written for the expression. If a number stands there instead, the document is read up
to that number and the fault has the way to the position as its path.

The induction is on the way. Each step of it adds one segment to the path, and what is written in
front of the position is read as the reader of whole documents reads it.
-/

namespace PegTemplates.Json

/-- The value at the end of a way into a value. -/
def Value.at? : Value → List Segment → Option Value
  | value, [] => some value
  | .array items, .position index :: path => items[index]?.bind (·.at? path)
  | .object fields, .field key :: path => (fields.lookup key).bind (·.at? path)
  | _, _ :: _ => none

/-- Compact texts of items, where the one at an index has another text. -/
def itemsWith (change : Value → String) : Nat → List Value → List String
  | _, [] => []
  | 0, item :: rest => change item :: rest.map Value.compact
  | index + 1, item :: rest => item.compact :: itemsWith change index rest

/-- Names and compact texts of fields, where the first with a name has another text. -/
def fieldsWith (change : Value → String) (key : String) :
    List (String × Value) → List (String × String)
  | [] => []
  | (name, value) :: rest =>
    if name = key then (name, change value) :: rest.map fun field => (field.1, field.2.compact)
    else (name, value.compact) :: fieldsWith change key rest

/-- Compact text of a value, where what stands at the end of a way is replaced by a text. -/
def Value.compactWith (text : String) : List Segment → Value → String
  | [], _ => text
  | .position index :: path, .array items =>
    "[" ++ ",".intercalate (itemsWith (Value.compactWith text path) index items) ++ "]"
  | .field key :: path, .object fields =>
    "\x7b" ++ ",".intercalate
      ((fieldsWith (Value.compactWith text path) key fields).map writtenMember) ++ "\x7d"
  | _ :: _, value => value.compact

/-- The item at an index stands between those in front of it and those behind it. -/
theorem itemsWith_append (change : Value → String) (front : List Value) (item : Value)
    (back : List Value) :
    itemsWith change front.length (front ++ item :: back) =
      front.map Value.compact ++ change item :: back.map Value.compact := by
  induction front with
  | nil => rfl
  | cons first front ih =>
    rw [List.length_cons, List.cons_append, itemsWith, ih, List.map_cons, List.cons_append]

/-- The field with a name stands between those in front of it and those behind it. -/
theorem fieldsWith_append (change : Value → String) {front : List (String × Value)}
    {key : String} (value : Value) (back : List (String × Value))
    (hkey : key ∉ front.map Prod.fst) :
    fieldsWith change key (front ++ (key, value) :: back) =
      front.map (fun field => (field.1, field.2.compact)) ++
        (key, change value) :: back.map (fun field => (field.1, field.2.compact)) := by
  induction front with
  | nil => exact if_pos rfl
  | cons first front ih =>
    rw [List.map_cons, List.mem_cons, not_or] at hkey
    rw [List.cons_append, fieldsWith, if_neg (Ne.symm hkey.1), ih hkey.2, List.map_cons,
      List.cons_append]

/-- Fields between braces are written as names and compact texts. -/
theorem map_writtenMember (fields : List (String × Value)) :
    (fields.map fun field => (field.1, field.2.compact)).map writtenMember =
      compactFields fields := by
  rw [List.map_map, compactFields_eq_map]
  rfl

/-- An array is written with the changed text among what is written for the other items. -/
theorem Value.compactWith_item (text : String) (path : List Segment) (front : List Value)
    (item : Value) (back : List Value) :
    (Value.array (front ++ item :: back)).compactWith text (.position front.length :: path) =
      "[" ++ ",".intercalate (front.map Value.compact ++
        item.compactWith text path :: back.map Value.compact) ++ "]" := by
  rw [Value.compactWith, itemsWith_append]

/-- An object is written with the changed text among what is written for the other fields. -/
theorem Value.compactWith_field (text : String) (path : List Segment)
    (front : List (String × Value)) (key : String) (value : Value) (back : List (String × Value))
    (hkey : key ∉ front.map Prod.fst) :
    (Value.object (front ++ (key, value) :: back)).compactWith text (.field key :: path) =
      "\x7b" ++ ",".intercalate (compactFields front ++
        writtenMember (key, value.compactWith text path) :: compactFields back) ++ "\x7d" := by
  rw [Value.compactWith, fieldsWith_append _ _ _ hkey, List.map_append, List.map_cons,
    map_writtenMember, map_writtenMember]

/-- What stands in front of a part of a list of texts and what stands behind it does not depend
on that part. -/
theorem exists_intercalate_around (front back : List String) :
    ∃ before behind, ∀ text,
      ",".intercalate (front ++ text :: back) = before ++ text ++ behind := by
  induction front with
  | nil =>
    cases back with
    | nil => exact ⟨"", "", fun text => by simp⟩
    | cons next back =>
      refine ⟨"", "," ++ ",".intercalate (next :: back), fun text => ?_⟩
      rw [List.nil_append, String.intercalate_cons_cons, String.empty_append, String.append_assoc]
  | cons first front ih =>
    obtain ⟨before, behind, haround⟩ := ih
    refine ⟨first ++ "," ++ before, behind, fun text => ?_⟩
    obtain ⟨next, more, hnext⟩ : ∃ next more, front ++ text :: back = next :: more :=
      List.exists_cons_of_ne_nil (by simp)
    rw [List.cons_append, hnext, String.intercalate_cons_cons, ← hnext, haround]
    simp only [String.append_assoc]

/-- An item at an index stands between others. -/
theorem exists_append_of_getElem? {α : Type} {items : List α} {index : Nat} {item : α}
    (hitem : items[index]? = some item) :
    ∃ front back, items = front ++ item :: back ∧ front.length = index := by
  obtain ⟨hindex, rfl⟩ := List.getElem?_eq_some_iff.mp hitem
  refine ⟨items.take index, items.drop (index + 1), ?_,
    List.length_take_of_le (Nat.le_of_lt hindex)⟩
  rw [List.getElem_cons_drop, List.take_append_drop]

/-- A field with a name that stands in no field in front of it stands between others. -/
theorem exists_append_of_lookup {fields : List (String × Value)} {key : String} {value : Value}
    (hfield : fields.lookup key = some value) :
    ∃ front back, fields = front ++ (key, value) :: back ∧ key ∉ front.map Prod.fst := by
  obtain ⟨front, back, hsplit, hfresh⟩ := List.lookup_eq_some_iff.mp hfield
  refine ⟨front, back, hsplit, fun hkey => ?_⟩
  obtain ⟨field, hmem, rfl⟩ := List.mem_map.mp hkey
  simpa using hfresh field hmem

/-- A way leads into the item of an array at an index. -/
theorem Value.at?_item {items : List Value} {index : Nat} {item : Value}
    (hitem : items[index]? = some item) (path : List Segment) :
    (Value.array items).at? (.position index :: path) = item.at? path := by
  rw [Value.at?, hitem, Option.bind_some]

/-- A way leads into an item of an array or into a field of an object. -/
theorem Value.step_of_at? {value target : Value} {segment : Segment} {path : List Segment}
    (htarget : value.at? (segment :: path) = some target) :
    (∃ front item back, value = .array (front ++ item :: back) ∧
      segment = .position front.length ∧ item.at? path = some target) ∨
    ∃ front key field back, value = .object (front ++ (key, field) :: back) ∧
      key ∉ front.map Prod.fst ∧ segment = .field key ∧ field.at? path = some target := by
  cases value with
  | null => simp [Value.at?] at htarget
  | number => simp [Value.at?] at htarget
  | text => simp [Value.at?] at htarget
  | array items =>
    cases segment with
    | field => simp [Value.at?] at htarget
    | unknown => simp [Value.at?] at htarget
    | position index =>
      obtain ⟨item, hitem, hrest⟩ := Option.bind_eq_some_iff.mp htarget
      obtain ⟨front, back, rfl, rfl⟩ := exists_append_of_getElem? hitem
      exact Or.inl ⟨front, item, back, rfl, rfl, hrest⟩
  | object fields =>
    cases segment with
    | position => simp [Value.at?] at htarget
    | unknown => simp [Value.at?] at htarget
    | field key =>
      obtain ⟨field, hfield, hrest⟩ := Option.bind_eq_some_iff.mp htarget
      obtain ⟨front, back, rfl, hkey⟩ := exists_append_of_lookup hfield
      exact Or.inr ⟨front, key, field, back, rfl, hkey, rfl, hrest⟩

/-- Nothing changes if the value at the end of a way is replaced by its own text. -/
theorem Value.compactWith_self {value target : Value} {path : List Segment}
    (htarget : value.at? path = some target) :
    value.compactWith target.compact path = value.compact := by
  induction path generalizing value with
  | nil =>
    obtain rfl : value = target := by simpa [Value.at?] using htarget
    rw [Value.compactWith]
  | cons segment path ih =>
    rcases Value.step_of_at? htarget with
      ⟨front, item, back, rfl, rfl, hrest⟩ | ⟨front, key, field, back, rfl, hkey, rfl, hrest⟩
    · rw [Value.compactWith_item, ih hrest, Value.compact, compactItems_eq_map, List.map_append,
        List.map_cons]
    · rw [Value.compactWith_field _ _ _ _ _ _ hkey, ih hrest, Value.compact,
        compactFields_eq_map (front ++ (key, field) :: back), List.map_append, List.map_cons,
        ← compactFields_eq_map, ← compactFields_eq_map, writtenMember]

/-- What is written in front of the end of a way and behind it stays as it is when what stands
there is replaced. -/
theorem Value.exists_around {value target : Value} {path : List Segment}
    (htarget : value.at? path = some target) :
    ∃ before behind, ∀ text, value.compactWith text path = before ++ text ++ behind := by
  induction path generalizing value with
  | nil => exact ⟨"", "", fun text => by simp [Value.compactWith]⟩
  | cons segment path ih =>
    rcases Value.step_of_at? htarget with
      ⟨front, item, back, rfl, rfl, hrest⟩ | ⟨front, key, field, back, rfl, hkey, rfl, hrest⟩
    · obtain ⟨before, behind, hchanged⟩ := ih hrest
      obtain ⟨first, last, haround⟩ :=
        exists_intercalate_around (front.map Value.compact) (back.map Value.compact)
      refine ⟨"[" ++ first ++ before, behind ++ last ++ "]", fun text => ?_⟩
      rw [Value.compactWith_item, haround, hchanged]
      simp only [String.append_assoc]
    · obtain ⟨before, behind, hchanged⟩ := ih hrest
      obtain ⟨first, last, haround⟩ :=
        exists_intercalate_around (compactFields front) (compactFields back)
      refine ⟨"\x7b" ++ first ++ stringText key ++ ":" ++ before, behind ++ last ++ "\x7d",
        fun text => ?_⟩
      rw [Value.compactWith_field _ _ _ _ _ _ hkey, haround, writtenMember, hchanged]
      simp only [String.append_assoc]

/-- An array in which an item is replaced is an array of what is written for the others and of the
changed text. -/
theorem array_spells_with (text : String) (path : List Segment) (front : List Value)
    (item : Value) (back : List Value) :
    ArrayText (front.map (fun item => textBytes item.compact) ++
        textBytes (item.compactWith text path) :: back.map fun item => textBytes item.compact)
      (textBytes ((Value.array (front ++ item :: back)).compactWith text
        (.position front.length :: path))) := by
  have harray := brackets_spell (front.map Value.compact ++
    item.compactWith text path :: back.map Value.compact)
  rw [Value.compactWith_item]
  simpa only [List.map_append, List.map_cons, List.map_map, Function.comp_def] using harray

/-- An object in which a field is replaced is an object with what is written for the others and
with the changed text. -/
theorem object_spells_with (text : String) (path : List Segment) (front : List (String × Value))
    (key : String) (value : Value) (back : List (String × Value))
    (hkey : key ∉ front.map Prod.fst) :
    ObjectText StringText (front.map (fun field => (field.1, textBytes field.2.compact)) ++
        (key, textBytes (value.compactWith text path)) ::
          back.map fun field => (field.1, textBytes field.2.compact))
      (textBytes ((Value.object (front ++ (key, value) :: back)).compactWith text
        (.field key :: path))) := by
  have hobject := braces_spell (front.map (fun field => (field.1, field.2.compact)) ++
    (key, value.compactWith text path) :: back.map fun field => (field.1, field.2.compact))
  rw [List.map_append, List.map_append, List.map_cons, List.map_cons, map_writtenMember,
    map_writtenMember, ← Value.compactWith_field _ _ _ _ _ _ hkey] at hobject
  simpa only [List.map_map, Function.comp_def] using hobject

/-- A number begins with a minus sign or a digit. -/
theorem NumberText.exists_cons {text : Bytes} (hnumber : NumberText text) :
    ∃ b more, text = b :: more ∧ (b = minus ∨ isDigit b = true) := by
  obtain ⟨sign, whole, fraction, exponent, hsign, hwhole, _, _, rfl⟩ := hnumber
  rcases hsign with rfl | rfl
  · obtain ⟨b, more, rfl, hdigit, _⟩ := hwhole.exists_cons
    exact ⟨b, _, rfl, Or.inr hdigit⟩
  · exact ⟨minus, _, rfl, Or.inl rfl⟩

end PegTemplates.Json

namespace PegTemplates

open Json

/-- Whether a way leads from an expression to an expression in it: through the names of variants,
the positions in their lists, and the body of a link. -/
inductive Expr.LeadsTo : Expr → List Segment → Expr → Prop where
  /-- Nowhere else. -/
  | here (expr : Expr) : LeadsTo expr [] expr
  /-- Into an item of a sequence. -/
  | sequence {items : List Expr} {index : Nat} {item target : Expr} {path : List Segment}
      (hitem : items[index]? = some item) (hrest : LeadsTo item path target) :
      LeadsTo (.sequence items) (.field "sequence" :: .position index :: path) target
  /-- Into a branch of a choice. -/
  | choice {branches : List Expr} {index : Nat} {branch target : Expr} {path : List Segment}
      (hbranch : branches[index]? = some branch) (hrest : LeadsTo branch path target) :
      LeadsTo (.choice branches) (.field "choice" :: .position index :: path) target
  /-- Into an option. -/
  | optional {inner target : Expr} {path : List Segment} (hrest : LeadsTo inner path target) :
      LeadsTo (.optional inner) (.field "optional" :: path) target
  /-- Into a repetition. -/
  | zeroOrMore {inner target : Expr} {path : List Segment} (hrest : LeadsTo inner path target) :
      LeadsTo (.zeroOrMore inner) (.field "zero_or_more" :: path) target
  /-- Into a repetition of at least one round. -/
  | oneOrMore {inner target : Expr} {path : List Segment} (hrest : LeadsTo inner path target) :
      LeadsTo (.oneOrMore inner) (.field "one_or_more" :: path) target
  /-- Into the body of a link. -/
  | link (label : Option String) {inner target : Expr} {path : List Segment}
      (hrest : LeadsTo inner path target) :
      LeadsTo (.link label inner) (.field "link" :: .field "inner" :: path) target
  /-- Into a positive lookahead. -/
  | followedBy {inner target : Expr} {path : List Segment} (hrest : LeadsTo inner path target) :
      LeadsTo (.followedBy inner) (.field "and" :: path) target
  /-- Into a negative lookahead. -/
  | notFollowedBy {inner target : Expr} {path : List Segment}
      (hrest : LeadsTo inner path target) :
      LeadsTo (.notFollowedBy inner) (.field "not" :: path) target

namespace Document

/-- Written forms of expressions are those of each. -/
theorem exprValues_eq_map (exprs : List Expr) : exprValues exprs = exprs.map exprValue := by
  induction exprs with
  | nil => rfl
  | cons expr exprs ih => rw [exprValues, ih, List.map_cons]

/-- The written form of an expression stands at its index. -/
theorem getElem?_exprValues {exprs : List Expr} {index : Nat} {expr : Expr}
    (hexpr : exprs[index]? = some expr) : (exprValues exprs)[index]? = some (exprValue expr) := by
  rw [exprValues_eq_map, List.getElem?_map, hexpr, Option.map_some]

/-- In the written form of an expression the same way leads to the written form of the other. -/
theorem at?_exprValue {outer target : Expr} {path : List Segment}
    (hleads : outer.LeadsTo path target) :
    (exprValue outer).at? path = some (exprValue target) := by
  induction hleads with
  | here expr => exact Value.at?.eq_1 _
  | sequence hitem hrest ih => exact (Value.at?_item (getElem?_exprValues hitem) _).trans ih
  | choice hbranch hrest ih => exact (Value.at?_item (getElem?_exprValues hbranch) _).trans ih
  | optional hrest ih => exact ih
  | zeroOrMore hrest ih => exact ih
  | oneOrMore hrest ih => exact ih
  | link label hrest ih => exact ih
  | followedBy hrest ih => exact ih
  | notFollowedBy hrest ih => exact ih

/-- Where the body of a rule stands in a grammar document, and the way on from there. -/
def bodyPath (index : Nat) (path : List Segment) : List Segment :=
  .field "rules" :: .position index :: .field "expr" :: path

/-- In the written form of a grammar the way goes on in the body of a rule. -/
theorem at?_grammarValue {grammar : Grammar} {index : Nat} {rule : Rule} {target : Expr}
    {path : List Segment} (hrule : grammar.rules[index]? = some rule)
    (hleads : rule.expr.LeadsTo path target) :
    (grammarValue grammar).at? (bodyPath index path) = some (exprValue target) := by
  have hvalue := congrArg (Option.map ruleValue) hrule
  rw [← List.getElem?_map] at hvalue
  exact (Value.at?_item hvalue _).trans (at?_exprValue hleads)

section Stopping

variable {variant : Variant} {content : Value} {path : List Segment} {number : String}
  {bound room : Nat} {fault : Fault}

/-- A number in place of an expression is no value. -/
theorem readExpr_stops_number {text : Bytes} (hnumber : NumberText text) (bound room : Nat) :
    Stops (readExpr bound room) text ⟨.expectedValue, []⟩ := by
  refine ⟨hnumber.starts, fun {lead} rest hlead => ?_⟩
  obtain ⟨read, hread⟩ := readExpr_cases bound room
  obtain ⟨b, more, rfl, hblank, _⟩ := hnumber.starts
  obtain ⟨_, _, hsame, hfirst⟩ := hnumber.exists_cons
  obtain ⟨rfl, _⟩ := List.cons.inj hsame
  have hother : b ≠ openBrace ∧ b ≠ quote := by
    rcases hfirst with rfl | hdigit
    · decide
    · exact ⟨ne_of_isDigit hdigit (by decide), ne_of_isDigit hdigit (by decide)⟩
  rw [hread]
  refine (firstByte_gives hlead hblank).faults ?_
  rw [if_neg hother.1, if_neg hother.2]
  rfl

/-- A fault in the content of a variant is met below its name. -/
theorem variantValue_stops (hnesting : (variantValue variant content).nesting ≤ room)
    (hbound : (textBytes ((variantValue variant content).compactWith number
      (.field variant.name :: path))).length ≤ bound)
    (hcontent : ∀ {less : Nat}, content.nesting ≤ less →
      (textBytes (content.compactWith number path)).length ≤ bound →
        Stops (readContent bound (readExpr bound less) (deeperExpr bound less) variant)
          (textBytes (content.compactWith number path)) fault) :
    Stops (readExpr bound room) (textBytes ((variantValue variant content).compactWith number
      (.field variant.name :: path))) (fault.within (.field variant.name)) := by
  have hnested : content.nesting + 1 ≤ room := by
    simpa [variantValue, Value.nesting, nestingOfFields] using hnesting
  obtain ⟨less, rfl⟩ : ∃ less, room = less + 1 := ⟨room - 1, by omega⟩
  have hobject : ObjectText StringText
      [(variant.name, textBytes (content.compactWith number path))]
      (textBytes ((variantValue variant content).compactWith number
        (.field variant.name :: path))) :=
    object_spells_with number path [] variant.name content [] List.not_mem_nil
  have hstops := hcontent (Nat.le_of_succ_le_succ hnested)
    (Nat.le_trans (hobject.value_length_le List.mem_cons_self) hbound)
  refine ⟨hobject.starts, fun {lead} rest hlead => ?_⟩
  obtain ⟨behind, after, hbehind, _, _, hread⟩ :=
    readExpr_variant bound less hobject hlead rest
  rw [Faults, hread]
  exact ((hstops.faults after hbehind).within _).bind _

/-- A fault in an item of a list is met below its position. -/
theorem readList_stops_item {α : Type} {read : ReadM α} (write : α → Value) {items : List α}
    {index : Nat} {item : α} (hitem : items[index]? = some item)
    (htakes : ∀ other ∈ items, (textBytes (write other).compact).length ≤ bound →
      Takes read (textBytes (write other).compact) other)
    (hbound : (textBytes ((Value.array (items.map write)).compactWith number
      (.position index :: path))).length ≤ bound)
    (hstops : (textBytes ((write item).compactWith number path)).length ≤ bound →
      Stops read (textBytes ((write item).compactWith number path)) fault) :
    Stops (readList bound (some read))
      (textBytes ((Value.array (items.map write)).compactWith number (.position index :: path)))
      (fault.within (.position index)) := by
  obtain ⟨front, back, rfl, rfl⟩ := exists_append_of_getElem? hitem
  have harray := array_spells_with number path (front.map write) (write item) (back.map write)
  rw [← List.map_cons, ← List.map_append, List.length_map, List.map_map] at harray
  have hlength := fun (text : Bytes) (htext : text ∈ _) =>
    Nat.le_trans (harray.value_length_le htext) hbound
  have hfront : List.Forall₂ (Takes read) (front.map fun other => textBytes (write other).compact)
      front := by
    refine List.forall₂_map_left_iff.mpr (List.forall₂_same.mpr fun other hother => ?_)
    refine htakes other (List.mem_append_left _ hother) (hlength _ (List.mem_append_left _ ?_))
    exact List.mem_map_of_mem hother
  have hstops := hstops (hlength _ (List.mem_append_right _ List.mem_cons_self))
  have hread := readList_stops harray hfront hstops hbound
  rwa [List.length_map] at hread

/-- A fault in an expression of a list is met below its position. -/
theorem exprValues_stop {exprs : List Expr} {index : Nat} {expr : Expr}
    (hexpr : exprs[index]? = some expr)
    (hnesting : (Value.array (exprValues exprs)).nesting ≤ room)
    (hbound : (textBytes ((Value.array (exprValues exprs)).compactWith number
      (.position index :: path))).length ≤ bound)
    (hstops : ∀ {less : Nat}, (exprValue expr).nesting ≤ less →
      (textBytes ((exprValue expr).compactWith number path)).length ≤ bound →
        Stops (readExpr bound less) (textBytes ((exprValue expr).compactWith number path)) fault) :
    Stops (readList bound (deeperExpr bound room))
      (textBytes ((Value.array (exprValues exprs)).compactWith number (.position index :: path)))
      (fault.within (.position index)) := by
  have hnested : nestingOfItems (exprValues exprs) + 1 ≤ room := hnesting
  obtain ⟨less, rfl⟩ : ∃ less, room = less + 1 := ⟨room - 1, by omega⟩
  rw [exprValues_eq_map] at hnested hbound ⊢
  have hroom : ∀ other ∈ exprs, (exprValue other).nesting ≤ less := fun other hother =>
    nestingOfItems_le_iff.mp (Nat.le_of_succ_le_succ hnested) _ (List.mem_map_of_mem hother)
  refine readList_stops_item exprValue hexpr (fun other hother hlength => ?_) hbound
    (hstops (hroom expr (List.mem_of_getElem? hexpr)))
  exact ExprText.takes other (exprValue_spells other (hroom other hother)) hlength

/-- A fault in the body of a link is met below its field. -/
theorem linkValue_stops {label : Option String} {inner : Expr}
    (hnesting : (Value.object [("label", labelValue label), ("inner", exprValue inner)]).nesting ≤
      room)
    (hbound : (textBytes ((Value.object [("label", labelValue label),
      ("inner", exprValue inner)]).compactWith number (.field "inner" :: path))).length ≤ bound)
    (hstops : ∀ {less : Nat}, (exprValue inner).nesting ≤ less →
      (textBytes ((exprValue inner).compactWith number path)).length ≤ bound →
        Stops (readExpr bound less) (textBytes ((exprValue inner).compactWith number path))
          fault) (expected : String) :
    Stops (readRecord bound expected ((deeperExpr bound room).map linkFormat))
      (textBytes ((Value.object [("label", labelValue label),
        ("inner", exprValue inner)]).compactWith number (.field "inner" :: path)))
      (fault.within (.field "inner")) := by
  have hnested : (exprValue inner).nesting + 1 ≤ room := by
    refine Nat.le_trans (Nat.succ_le_succ ?_) hnesting
    simp only [nestingOfFields]
    omega
  obtain ⟨less, rfl⟩ : ∃ less, room = less + 1 := ⟨room - 1, by omega⟩
  have hobject := object_spells_with number path [("label", labelValue label)] "inner"
    (exprValue inner) [] (by simp)
  have hinner := hstops (Nat.le_of_succ_le_succ hnested) (Nat.le_trans
    (hobject.value_length_le (List.mem_append_right _ List.mem_cons_self)) hbound)
  have hlabel : Takes readOptionalText (textBytes (labelValue label).compact) label :=
    ((labelValue_spells label).text List.mem_cons_self).takes
  have hreads : ReadsMembers (linkFormat (readExpr bound less)).fields
      (linkFormat (readExpr bound less)).start
      [("label", textBytes (labelValue label).compact)] ⟨some label, none⟩ :=
    .cons rfl rfl (hlabel.map fun label => (⟨some label, none⟩ : PartialLink)) (.nil _)
  exact readRecord_stops hreads rfl rfl (hinner.bind _) hobject expected hbound

/-- A number in place of an expression inside another one is met at the end of the way to it. -/
theorem exprValue_stops {outer target : Expr} (hleads : outer.LeadsTo path target)
    (hnumber : NumberText (textBytes number)) (hnesting : (exprValue outer).nesting ≤ room)
    (hbound : (textBytes ((exprValue outer).compactWith number path)).length ≤ bound) :
    Stops (readExpr bound room) (textBytes ((exprValue outer).compactWith number path))
      ⟨.expectedValue, path⟩ := by
  induction hleads generalizing room with
  | here expr =>
    rw [Value.compactWith]
    exact readExpr_stops_number hnumber bound room
  | sequence hitem hrest ih =>
    exact variantValue_stops hnesting hbound fun hless hlength =>
      (exprValues_stop hitem hless hlength ih).bind _
  | choice hbranch hrest ih =>
    exact variantValue_stops hnesting hbound fun hless hlength =>
      (exprValues_stop hbranch hless hlength ih).bind _
  | optional hrest ih =>
    exact variantValue_stops hnesting hbound fun hless hlength => (ih hless hlength).bind _
  | zeroOrMore hrest ih =>
    exact variantValue_stops hnesting hbound fun hless hlength => (ih hless hlength).bind _
  | oneOrMore hrest ih =>
    exact variantValue_stops hnesting hbound fun hless hlength => (ih hless hlength).bind _
  | link label hrest ih =>
    exact variantValue_stops hnesting hbound fun hless hlength =>
      linkValue_stops hless hlength ih _
  | followedBy hrest ih =>
    exact variantValue_stops hnesting hbound fun hless hlength => (ih hless hlength).bind _
  | notFollowedBy hrest ih =>
    exact variantValue_stops hnesting hbound fun hless hlength => (ih hless hlength).bind _

/-- A number in the body of a rule is met below the field of the body. -/
theorem ruleValue_stops {rule : Rule} {target : Expr} (hleads : rule.expr.LeadsTo path target)
    (hnumber : NumberText (textBytes number)) (hnesting : (ruleValue rule).nesting ≤ room + 1)
    (hbound : (textBytes ((ruleValue rule).compactWith number
      (.field "expr" :: path))).length ≤ bound) :
    Stops (readRecord bound "struct Rule" (some (ruleFormat (readExpr bound room))))
      (textBytes ((ruleValue rule).compactWith number (.field "expr" :: path)))
      ⟨.expectedValue, .field "expr" :: path⟩ := by
  have hnested : (exprValue rule.expr).nesting ≤ room := by
    simpa [ruleValue, Value.nesting, nestingOfFields] using hnesting
  have hobject := object_spells_with number path [("name", .text rule.name)] "expr"
    (exprValue rule.expr) [] (by simp)
  have hbody := exprValue_stops hleads hnumber hnested (Nat.le_trans
    (hobject.value_length_le (List.mem_append_right _ List.mem_cons_self)) hbound)
  have hname : Takes readText (textBytes (Value.text rule.name).compact) rule.name :=
    (stringText_spells rule.name).takes
  have hreads : ReadsMembers (ruleFormat (readExpr bound room)).fields
      (ruleFormat (readExpr bound room)).start
      [("name", textBytes (Value.text rule.name).compact)] ⟨some rule.name, none⟩ :=
    .cons rfl rfl (hname.map fun name => (⟨some name, none⟩ : PartialRule)) (.nil _)
  exact readRecord_stops hreads rfl rfl (hbody.bind _) hobject _ hbound

/-- A number in the body of a rule of a grammar is met at the end of the way to it. -/
theorem grammarValue_stops {grammar : Grammar} {index : Nat} {rule : Rule} {target : Expr}
    (hrule : grammar.rules[index]? = some rule) (hleads : rule.expr.LeadsTo path target)
    (hnumber : NumberText (textBytes number)) (hnesting : (grammarValue grammar).nesting ≤ 127)
    (hbound : (textBytes ((grammarValue grammar).compactWith number
      (bodyPath index path))).length ≤ bound) :
    Stops (readGrammar bound)
      (textBytes ((grammarValue grammar).compactWith number (bodyPath index path)))
      ⟨.expectedValue, bodyPath index path⟩ := by
  have hnested : nestingOfItems (grammar.rules.map ruleValue) ≤ 125 := by
    simp only [grammarValue, Value.nesting, nestingOfFields] at hnesting
    omega
  have hroom : ∀ other ∈ grammar.rules, (ruleValue other).nesting ≤ 125 := fun other hother =>
    nestingOfItems_le_iff.mp hnested _ (List.mem_map_of_mem hother)
  have hobject : ObjectText StringText [("rules", textBytes ((Value.array
      (grammar.rules.map ruleValue)).compactWith number
        (.position index :: .field "expr" :: path)))]
      (textBytes ((grammarValue grammar).compactWith number (bodyPath index path))) :=
    object_spells_with number _ [] "rules" (.array (grammar.rules.map ruleValue)) []
      List.not_mem_nil
  have hrules := readList_stops_item ruleValue hrule
    (fun other hother => RuleText.takes (ruleValue_spells other (hroom other hother)))
    (Nat.le_trans (hobject.value_length_le List.mem_cons_self) hbound)
    (ruleValue_stops hleads hnumber (hroom rule (List.mem_of_getElem? hrule)))
  have hreads (read : ReadM Rule) : ReadsMembers (grammarFormat bound read).fields
      (grammarFormat bound read).start [] none := .nil none
  exact readRecord_stops (hreads _) rfl rfl (hrules.bind _) hobject _ hbound

end Stopping

/-- The way to the body of a rule is written with the index of the rule, and the way on behind
it. -/
theorem pathText_bodyPath (index : Nat) (path : List Segment) :
    pathText (bodyPath index path) =
      s!"rules[{index}].expr" ++ String.join (path.map Segment.behind) := by
  have hrules : "rules[" = "rules" ++ "[" := by decide
  have hexpr : "].expr" = "]" ++ ("." ++ "expr") := by decide
  rw [bodyPath, pathText, List.map_cons, List.map_cons, String.join_cons, String.join_cons, hrules,
    hexpr]
  simp only [Segment.behind, toString, String.append_assoc]

/-- A number that stands in a written grammar in place of an expression is reported at the way to
that expression: the index of its rule, and the names of variants, the positions in lists and the
bodies of links on the way down to it. -/
theorem number_reported_at_position (grammar : Grammar)
    (hnesting : (grammarValue grammar).nesting ≤ 127) {index : Nat} {rule : Rule}
    (hrule : grammar.rules[index]? = some rule) {path : List Segment} {target : Expr}
    (hleads : rule.expr.LeadsTo path target) {number : String}
    (hnumber : NumberText (textBytes number)) :
    (grammarValue grammar).at? (bodyPath index path) = some (exprValue target) ∧
      (∃ before behind, toText grammar = before ++ (exprValue target).compact ++ behind ∧
        ∀ text, (grammarValue grammar).compactWith text (bodyPath index path) =
          before ++ text ++ behind) ∧
      ∃ fault, ofText ((grammarValue grammar).compactWith number (bodyPath index path)) =
          .error fault ∧ fault.path = bodyPath index path ∧
        pathText fault.path = s!"rules[{index}].expr" ++ String.join (path.map Segment.behind) := by
  have htarget := at?_grammarValue hrule hleads
  obtain ⟨before, behind, haround⟩ := Value.exists_around htarget
  have hwritten : toText grammar = before ++ (exprValue target).compact ++ behind := by
    rw [← haround, Value.compactWith_self htarget, toText]
  have hstops := grammarValue_stops hrule hleads hnumber hnesting (Nat.le_refl _)
  have hread := hstops.faults [] Blanks.nil
  rw [List.nil_append, List.append_nil] at hread
  refine ⟨htarget, ⟨before, behind, hwritten, haround⟩, ⟨.expectedValue, bodyPath index path⟩, ?_,
    rfl, pathText_bodyPath index path⟩
  rw [ofText, ofBytes, ← textBytes, hread]

/-- In the second rule of a grammar a number stands in an option that is the body of a link in a
branch of a choice. -/
theorem number_reported_at_position_in_link :
    ∃ fault, ofText ("\x7b\"rules\":[\x7b\"name\":\"R\",\"expr\":\"any\"\x7d," ++
        "\x7b\"name\":\"S\",\"expr\":\x7b\"choice\":[\"empty\",\x7b\"link\":\x7b" ++
        "\"label\":\"x\",\"inner\":\x7b\"optional\":-1.5e3\x7d\x7d\x7d]\x7d\x7d]\x7d") =
        .error fault ∧
      pathText fault.path = "rules[1].expr.choice[1].link.inner.optional" := by
  have hleads : (Expr.choice [.empty, .link (some "x") (.optional (.nonTerminal "R"))]).LeadsTo
      [.field "choice", .position 1, .field "link", .field "inner", .field "optional"]
      (.nonTerminal "R") := .choice rfl (.link _ (.optional (.here _)))
  have hrule : (⟨[⟨"R", .any⟩, ⟨"S", .choice [.empty,
      .link (some "x") (.optional (.nonTerminal "R"))]⟩]⟩ : Grammar).rules[1]? = some ⟨"S", _⟩ :=
    rfl
  have hdigits {b : UInt8} (hb : isDigit b = true) : Digits [b] :=
    ⟨List.cons_ne_nil _ _, List.forall_mem_singleton.mpr hb⟩
  have hnumber : NumberText (textBytes "-1.5e3") :=
    ⟨[minus], [0x31], [point, 0x35], [0x65, 0x33], .inr rfl,
      ⟨hdigits rfl, fun h => by cases h⟩, .inr ⟨[0x35], hdigits rfl, rfl⟩,
      .inr ⟨0x65, [], [0x33], rfl, .inl rfl, hdigits rfl, rfl⟩, by decide +kernel⟩
  obtain ⟨_, _, fault, hfault, _, hpath⟩ :=
    number_reported_at_position _ (by decide) hrule hleads hnumber
  exact ⟨fault, (congrArg ofText (by decide +kernel)).trans hfault,
    hpath.trans (by decide +kernel)⟩

end Document

end PegTemplates
