import PegTemplates.Document.Reader
import PegTemplates.Proofs.Reading.Records

/-!
# Spellings of grammar documents

What counts as a spelling of a grammar is said by recursion on its expressions: a variant without
content is a bare name or an object with `null`, every other one an object with its name and its
content, and rules, links and folds are records. Each array and each object takes one level of the
nesting that is left, but what stands in a skipped value does not count. Every spelling is read as
the grammar.
-/

namespace PegTemplates.Document

open Json

/-- Whether a text takes one level of nesting and has content with what is left of it. -/
def Deeper (content : Nat → Bytes → Prop) (room : Nat) (text : Bytes) : Prop :=
  ∃ less, room = less + 1 ∧ content less text

/-- What takes one level has content with one level less. -/
theorem Deeper.content {content : Nat → Bytes → Prop} (less : Nat) {text : Bytes}
    (hdeeper : Deeper content (less + 1) text) : content less text := by
  obtain ⟨_, hless, hcontent⟩ := hdeeper
  exact Nat.succ.inj hless ▸ hcontent

/-- Whether a text is an array whose elements have texts of that kind. -/
def Listed (elements : List Bytes → Prop) (text : Bytes) : Prop :=
  ∃ texts, elements texts ∧ ArrayText texts text

/-- Whether a text is an object whose only field is the name of a variant with its content. -/
def KeyedText (variant : Variant) (content : Nat → Bytes → Prop) : Nat → Bytes → Prop :=
  Deeper fun room text =>
    ∃ value, content room value ∧ ObjectText StringText [(variant.name, value)] text

/-- Whether a text is the name of a variant without content, or its object with `null`. -/
def BareText (variant : Variant) (room : Nat) (text : Bytes) : Prop :=
  StringText variant.name text ∨ KeyedText variant (fun _ value => value = nullText) room text

/-- Whether a label is given by fields: it is written, or left out if there is none. -/
def LabelFields (label : Option String) (fields : List (String × Bytes)) : Prop :=
  label = none ∧ fields = [] ∨ ∃ text, OptionalText label text ∧ fields = [("label", text)]

mutual

/-- Whether a text is a spelling of an expression with that much nesting left. -/
def ExprText : Expr → Nat → Bytes → Prop
  | .empty => BareText .empty
  | .byte value => KeyedText .byte fun _ => ByteText value
  | .nonTerminal name => KeyedText .nonTerminal fun _ => StringText name
  | .sequence items => KeyedText .sequence (Deeper fun room => Listed (ExprTexts items room))
  | .choice branches => KeyedText .choice (Deeper fun room => Listed (ExprTexts branches room))
  | .optional inner => KeyedText .optional (ExprText inner)
  | .zeroOrMore inner => KeyedText .zeroOrMore (ExprText inner)
  | .oneOrMore inner => KeyedText .oneOrMore (ExprText inner)
  | .beginCapture => BareText .beginCapture
  | .endCapture => BareText .endCapture
  | .tag name => KeyedText .tag fun _ => StringText name
  | .fold label => KeyedText .fold (Deeper fun _ text =>
      ∃ fields, LabelFields label fields ∧ RecordText ["label"] fields text)
  | .link label inner => KeyedText .link (Deeper fun room text =>
      ∃ fields body, LabelFields label fields ∧ ExprText inner room body ∧
        RecordText ["label", "inner"] (fields ++ [("inner", body)]) text)
  | .any => BareText .any
  | .byteSet bytes => KeyedText .byteSet (Deeper fun _ => Listed (List.Forall₂ ByteText bytes))
  | .followedBy inner => KeyedText .followedBy (ExprText inner)
  | .notFollowedBy inner => KeyedText .notFollowedBy (ExprText inner)

/-- Whether texts are spellings of expressions. -/
def ExprTexts : List Expr → Nat → List Bytes → Prop
  | [], _, texts => texts = []
  | expr :: exprs, room, texts =>
    ∃ text more, ExprText expr room text ∧ ExprTexts exprs room more ∧ texts = text :: more

end

/-- Whether a text is a spelling of a rule with that much nesting left. -/
def RuleText (rule : Rule) : Nat → Bytes → Prop :=
  Deeper fun room text => ∃ name body, StringText rule.name name ∧ ExprText rule.expr room body ∧
    RecordText ["name", "expr"] [("name", name), ("expr", body)] text

/-- Whether a text is a spelling of a grammar with that much nesting. -/
def GrammarText (grammar : Grammar) : Nat → Bytes → Prop :=
  Deeper fun room text =>
    ∃ rules, Deeper (fun room => Listed
        (List.Forall₂ (fun rule text => RuleText rule room text) grammar.rules)) room rules ∧
      RecordText ["rules"] [("rules", rules)] text

section Lengths

variable {text : Bytes}

/-- An element is no longer than what it is listed in. -/
theorem Listed.takes {α : Type} {read : ReadM α} {elements : List Bytes → Prop} {values : List α}
    (hlisted : Listed elements text) {bound : Nat} (hbound : text.length ≤ bound)
    (htakes : ∀ texts, elements texts → (∀ item ∈ texts, item.length ≤ bound) →
      List.Forall₂ (Takes read) texts values) :
    Takes (readList bound (some read)) text values := by
  obtain ⟨texts, helements, harray⟩ := hlisted
  have hvalues := htakes texts helements fun item hitem =>
    Nat.le_trans (harray.value_length_le hitem) hbound
  exact ⟨harray.starts, fun hlead _ => readList_gives harray hvalues hbound hlead _⟩

end Lengths

section Variants

variable {variant : Variant} {text : Bytes} {room : Nat} {expr : Expr}

/-- Reads an expression one level further down, if there is one. -/
def deeperExpr (bound : Nat) : Nat → Option (ReadM Expr)
  | 0 => none
  | room + 1 => some (readExpr bound room)

/-- An expression with nesting left has content with one level less. -/
theorem readExpr_succ (bound room : Nat) :
    readExpr bound (room + 1) =
      readVariantWith (some (readContent bound (readExpr bound room) (deeperExpr bound room))) := by
  cases room <;> rfl

/-- An expression may always be a bare name. -/
theorem readExpr_cases (bound room : Nat) :
    ∃ content, readExpr bound room = readVariantWith content := by
  obtain _ | room := room
  · exact ⟨none, rfl⟩
  · exact ⟨_, readExpr_succ bound room⟩

/-- A variant is read by its name. -/
theorem readVariant_gives {pieces : List Bytes}
    (hpieces : List.Forall₂ CharText variant.name.toList pieces) (rest : Bytes) :
    Gives readVariant (pieces.flatten ++ quote :: rest) variant rest := by
  refine (readString_gives hpieces rest).bind ?_
  rw [Variant.ofName?_name]
  exact .pure _ _

/-- The name of a variant leads to its content, behind which the object ends. -/
theorem readExpr_variant {value : Bytes} (bound room : Nat)
    (hobject : ObjectText StringText [(variant.name, value)] text) {lead : Bytes}
    (hlead : Blanks lead) (rest : Bytes) :
    ∃ behind after, Blanks behind ∧ Follows after ∧ Gives endVariant after () rest ∧
      readExpr bound (room + 1) (lead ++ (text ++ rest)) =
        (do
          let expr ← within (.field variant.name)
            (readContent bound (readExpr bound room) (deeperExpr bound room) variant)
          endVariant
          return expr) (behind ++ (value ++ after)) := by
  obtain ⟨items, inside, hitems, hseparated, henclosed⟩ := hobject
  obtain ⟨blanks, trail, hblanks, htrail, rfl⟩ := henclosed
  obtain _ | ⟨⟨key, before, behind, ⟨pieces, hpieces, rfl⟩, hbefore, hbehind, rfl⟩, hnil⟩ := hitems
  cases hnil
  obtain _ | ⟨hnil⟩ := hseparated
  cases hnil
  have hend : Gives endVariant (trail ++ closeBrace :: rest) () rest :=
    (peek_gives htrail (by decide)).bind (.ite_pos rfl (advance_gives _ _))
  refine ⟨behind, _, hbehind, Follows.close htrail rest (.inr (.inr rfl)), hend, ?_⟩
  simp only [List.append_assoc, List.cons_append, List.nil_append, List.append_nil]
  rw [readExpr_succ]
  have hkey : Gives readVariantKey
      (blanks ++ quote :: (pieces.flatten ++ quote :: (before ++ colon ::
        (behind ++ (value ++ (trail ++ closeBrace :: rest)))))) variant
      (before ++ colon :: (behind ++ (value ++ (trail ++ closeBrace :: rest)))) :=
    (peek_gives hblanks (by decide)).bind
      (.ite_pos rfl ((advance_gives _ _).bind (readVariant_gives hpieces _)))
  refine (firstByte_gives hlead (by decide)).run_bind.trans ?_
  rw [if_pos rfl]
  refine (advance_gives _ _).run_bind.trans ?_
  exact hkey.run_bind.trans (readColon_gives hbefore).run_bind

/-- A variant with content is read with its content. -/
theorem KeyedText.takes {content : Nat → Bytes → Prop}
    (hkeyed : KeyedText variant content room text) {bound : Nat} (hbound : text.length ≤ bound)
    (hcontent : ∀ {less : Nat} {value : Bytes}, content less value → value.length ≤ bound →
      Takes (readContent bound (readExpr bound less) (deeperExpr bound less) variant) value expr) :
    Takes (readExpr bound room) text expr := by
  obtain ⟨less, rfl, value, hvalue, hobject⟩ := hkeyed
  have hlength : value.length ≤ bound :=
    Nat.le_trans (hobject.value_length_le List.mem_cons_self) hbound
  have htakes := hcontent hvalue hlength
  refine ⟨hobject.starts, fun {lead rest} hlead _ => ?_⟩
  obtain ⟨behind, after, hbehind, hafter, hend, hread⟩ :=
    readExpr_variant bound less hobject hlead rest
  rw [Gives, hread]
  exact ((htakes.gives hbehind hafter).within _).bind (hend.bind (.pure _ _))

/-- A variant without content is read by its name or with `null`. -/
theorem BareText.takes (hbare : BareText variant room text) {bound : Nat}
    (hbound : text.length ≤ bound) (hexpr : bareExpr variant = return expr)
    (hcontent : ∀ less, readContent bound (readExpr bound less) (deeperExpr bound less) variant =
      (do readUnit; return expr)) :
    Takes (readExpr bound room) text expr := by
  rcases hbare with hname | hkeyed
  · refine ⟨hname.starts, fun {lead rest} hlead _ => ?_⟩
    obtain ⟨pieces, hpieces, rfl⟩ := hname
    obtain ⟨content, hread⟩ := readExpr_cases bound room
    simp only [List.append_assoc, List.cons_append, List.nil_append]
    rw [hread]
    refine (firstByte_gives hlead (by decide)).bind ?_
    rw [if_neg (by decide), if_pos rfl]
    refine (advance_gives _ _).bind ((readVariant_gives hpieces rest).bind ?_)
    rw [hexpr]
    exact .pure _ _
  · refine hkeyed.takes hbound fun {less value} hnull _ => ?_
    obtain rfl : value = nullText := hnull
    rw [hcontent]
    exact readUnit_takes.map fun _ => expr

end Variants

section Formats

variable {label : Option String} {fields : List (String × Bytes)}

/-- A given label is a spelling of it. -/
theorem LabelFields.text (hlabel : LabelFields label fields) {text : Bytes}
    (hfield : ("label", text) ∈ fields) : OptionalText label text := by
  rcases hlabel with ⟨_, rfl⟩ | ⟨written, hwritten, rfl⟩
  · cases hfield
  · obtain rfl : text = written := (Prod.mk.inj (List.mem_singleton.mp hfield)).2
    exact hwritten

/-- The state of a reader that has read a field, if its name has been read. -/
def stateOf {α : Type} (name : String) (value : α) (read : List String) : Option α :=
  if name ∈ read then some value else none

section States

variable {α : Type} {name other : String} {value : α} {read : List String}

/-- A field whose name has been read has its value. -/
theorem stateOf_mem (hname : name ∈ read) : stateOf name value read = some value := if_pos hname

/-- A field whose name has not been read has none. -/
theorem stateOf_not_mem (hname : name ∉ read) : stateOf name value read = none := if_neg hname

/-- Reading a field sets its value. -/
@[simp] theorem stateOf_cons_self : stateOf name value (name :: read) = some value :=
  stateOf_mem List.mem_cons_self

/-- Reading a field leaves the others as they are. -/
theorem stateOf_cons_ne (hne : name ≠ other) :
    stateOf name value (other :: read) = stateOf name value read := by
  simp only [stateOf, List.mem_cons, hne, false_or]

end States

/-- Folds are made from their label. -/
theorem foldFormat_fills (hlabel : LabelFields label fields) :
    Fills foldFormat fields label (stateOf "label" label) where
  start := rfl
  known := List.nodup_singleton _
  given := by
    rcases hlabel with ⟨_, rfl⟩ | ⟨_, _, rfl⟩
    · exact List.nodup_nil
    · exact List.nodup_singleton _
  field := by
    intro field hfield text htext read hread
    obtain rfl := List.mem_singleton.mp hfield
    rw [stateOf_not_mem hread, stateOf_cons_self]
    exact ⟨rfl, (hlabel.text htext).takes.map some⟩
  default := by
    intro field hfield _
    obtain rfl := List.mem_singleton.mp hfield
    rfl
  finish := by
    intro read hread
    rcases hlabel with ⟨rfl, rfl⟩ | ⟨_, _, rfl⟩
    · rw [List.perm_nil.mp hread]
      rfl
    · rw [List.perm_singleton.mp hread]
      rfl

/-- Links are made from their label and their body. -/
theorem linkFormat_fills (hlabel : LabelFields label fields) {inner : Expr} {body : Bytes}
    {readBody : ReadM Expr} (hbody : Takes readBody body inner) :
    Fills (linkFormat readBody) (fields ++ [("inner", body)]) (.link label inner)
      (fun read => ⟨stateOf "label" label read, stateOf "inner" inner read⟩) where
  start := rfl
  known := (by decide : ["label", "inner"].Nodup)
  given := by
    rcases hlabel with ⟨_, rfl⟩ | ⟨_, _, rfl⟩
    · exact List.nodup_singleton _
    · exact (by decide : ["label", "inner"].Nodup)
  field := by
    intro field hfield text htext read hread
    rcases List.mem_pair.mp hfield with rfl | rfl
    · have hgiven : ("label", text) ∈ fields :=
        (List.mem_append.mp htext).resolve_right (by simp)
      dsimp only at hread ⊢
      rw [stateOf_not_mem hread, stateOf_cons_self, stateOf_cons_ne (by decide)]
      exact ⟨rfl, (hlabel.text hgiven).takes.map fun written =>
        (⟨some written, stateOf "inner" inner read⟩ : PartialLink)⟩
    · have hgiven : ("inner", text) ∈ [("inner", body)] := by
        refine (List.mem_append.mp htext).resolve_left fun hlabelled => ?_
        rcases hlabel with ⟨_, rfl⟩ | ⟨_, _, rfl⟩
        · cases hlabelled
        · simp at hlabelled
      obtain rfl : text = body := (Prod.mk.inj (List.mem_singleton.mp hgiven)).2
      dsimp only at hread ⊢
      rw [stateOf_not_mem hread, stateOf_cons_self, stateOf_cons_ne (by decide)]
      exact ⟨rfl, hbody.map fun inner =>
        (⟨stateOf "label" label read, some inner⟩ : PartialLink)⟩
  default := by
    intro field hfield hmissing
    rcases List.mem_pair.mp hfield with rfl | rfl
    · rfl
    · exact absurd (by simp) hmissing
  finish := by
    intro read hread
    have hinner : "inner" ∈ read := hread.mem_iff.mpr (by simp)
    dsimp only [linkFormat]
    rw [stateOf_mem hinner]
    rcases hlabel with ⟨rfl, rfl⟩ | ⟨_, _, rfl⟩
    · have hnone : "label" ∉ read := fun h => absurd (hread.mem_iff.mp h) (by simp)
      rw [stateOf_not_mem hnone]
      rfl
    · have hlabel : "label" ∈ read := hread.mem_iff.mpr (by simp)
      rw [stateOf_mem hlabel]
      rfl

/-- Rules are made from their name and their body. -/
theorem ruleFormat_fills {rule : Rule} {name body : Bytes} {readBody : ReadM Expr}
    (hname : StringText rule.name name) (hbody : Takes readBody body rule.expr) :
    Fills (ruleFormat readBody) [("name", name), ("expr", body)] rule
      (fun read => ⟨stateOf "name" rule.name read, stateOf "expr" rule.expr read⟩) where
  start := rfl
  known := (by decide : ["name", "expr"].Nodup)
  given := (by decide : ["name", "expr"].Nodup)
  field := by
    intro field hfield text htext read hread
    rcases List.mem_pair.mp hfield with rfl | rfl
    · obtain rfl : text = name := by simpa using htext
      dsimp only at hread ⊢
      rw [stateOf_not_mem hread, stateOf_cons_self, stateOf_cons_ne (by decide)]
      exact ⟨rfl, hname.takes.map fun name =>
        (⟨some name, stateOf "expr" rule.expr read⟩ : PartialRule)⟩
    · obtain rfl : text = body := by simpa using htext
      dsimp only at hread ⊢
      rw [stateOf_not_mem hread, stateOf_cons_self, stateOf_cons_ne (by decide)]
      exact ⟨rfl, hbody.map fun body =>
        (⟨stateOf "name" rule.name read, some body⟩ : PartialRule)⟩
  default := by
    intro field hfield hmissing
    rcases List.mem_pair.mp hfield with rfl | rfl <;> exact absurd (by simp) hmissing
  finish := by
    intro read hread
    have hname : "name" ∈ read := hread.mem_iff.mpr (by simp)
    have hexpr : "expr" ∈ read := hread.mem_iff.mpr (by simp)
    dsimp only [ruleFormat]
    rw [stateOf_mem hname, stateOf_mem hexpr]

/-- Grammars are made from their rules. -/
theorem grammarFormat_fills {grammar : Grammar} {rules : Bytes} {bound : Nat} {read : ReadM Rule}
    (hrules : Takes (readList bound (some read)) rules grammar.rules) :
    Fills (grammarFormat bound read) [("rules", rules)] grammar
      (stateOf "rules" grammar.rules) where
  start := rfl
  known := List.nodup_singleton _
  given := List.nodup_singleton _
  field := by
    intro field hfield text htext read hread
    obtain rfl := List.mem_singleton.mp hfield
    obtain rfl : text = rules := (Prod.mk.inj (List.mem_singleton.mp htext)).2
    rw [stateOf_not_mem hread, stateOf_cons_self]
    exact ⟨rfl, hrules.map some⟩
  default := by
    intro field hfield hmissing
    obtain rfl := List.mem_singleton.mp hfield
    exact absurd List.mem_cons_self hmissing
  finish := by
    intro read hread
    rw [List.perm_singleton.mp hread]
    rfl

end Formats

section Expressions

variable {bound room : Nat} {text : Bytes}

/-- Content of one more level is read one level further down. -/
theorem Deeper.takes {α : Type} {content : Nat → Bytes → Prop} {value : α}
    (hdeeper : Deeper content room text) (read : Option (ReadM Expr) → ReadM α)
    (htakes : ∀ less, content less text → Takes (read (some (readExpr bound less))) text value) :
    Takes (read (deeperExpr bound room)) text value := by
  obtain ⟨less, rfl, hcontent⟩ := hdeeper
  exact htakes less hcontent

mutual

/-- Every spelling of an expression is read as the expression. -/
theorem ExprText.takes (expr : Expr) {room : Nat} {text : Bytes}
    (htext : ExprText expr room text) (hbound : text.length ≤ bound) :
    Takes (readExpr bound room) text expr :=
  match expr with
  | .empty => BareText.takes htext hbound rfl fun _ => rfl
  | .beginCapture => BareText.takes htext hbound rfl fun _ => rfl
  | .endCapture => BareText.takes htext hbound rfl fun _ => rfl
  | .any => BareText.takes htext hbound rfl fun _ => rfl
  | .byte _ => KeyedText.takes htext hbound fun hcontent _ =>
      (ByteText.takes hcontent).map Expr.byte
  | .nonTerminal _ => KeyedText.takes htext hbound fun hcontent _ =>
      (StringText.takes hcontent).map Expr.nonTerminal
  | .tag _ => KeyedText.takes htext hbound fun hcontent _ =>
      (StringText.takes hcontent).map Expr.tag
  | .optional inner => KeyedText.takes htext hbound fun hcontent hlength =>
      (ExprText.takes inner hcontent hlength).map Expr.optional
  | .zeroOrMore inner => KeyedText.takes htext hbound fun hcontent hlength =>
      (ExprText.takes inner hcontent hlength).map Expr.zeroOrMore
  | .oneOrMore inner => KeyedText.takes htext hbound fun hcontent hlength =>
      (ExprText.takes inner hcontent hlength).map Expr.oneOrMore
  | .followedBy inner => KeyedText.takes htext hbound fun hcontent hlength =>
      (ExprText.takes inner hcontent hlength).map Expr.followedBy
  | .notFollowedBy inner => KeyedText.takes htext hbound fun hcontent hlength =>
      (ExprText.takes inner hcontent hlength).map Expr.notFollowedBy
  | .sequence items => by
    refine KeyedText.takes htext hbound fun hcontent hlength => Takes.map Expr.sequence ?_
    refine hcontent.takes (readList bound) fun _ hlisted => ?_
    exact hlisted.takes hlength fun _ htexts => ExprTexts.takes items htexts
  | .choice branches => by
    refine KeyedText.takes htext hbound fun hcontent hlength => Takes.map Expr.choice ?_
    refine hcontent.takes (readList bound) fun _ hlisted => ?_
    exact hlisted.takes hlength fun _ htexts => ExprTexts.takes branches htexts
  | .byteSet _ => by
    refine KeyedText.takes htext hbound fun hcontent hlength => Takes.map Expr.byteSet ?_
    refine hcontent.takes
      (fun deeper => readList bound (deeper.map fun _ => readByte)) fun _ hlisted => ?_
    exact hlisted.takes hlength fun _ htexts _ => htexts.flip.imp fun _ _ => ByteText.takes
  | .fold _ => by
    refine KeyedText.takes htext hbound fun hcontent hlength => Takes.map Expr.fold ?_
    refine hcontent.takes (fun deeper =>
      readRecord bound "struct variant Expr::Fold" (deeper.map fun _ => foldFormat))
      fun _ ⟨_, hlabel, hrecord⟩ => ?_
    exact hrecord.takes (foldFormat_fills hlabel) _ hlength
  | .link _ inner => by
    refine KeyedText.takes htext hbound fun hcontent hlength => ?_
    refine hcontent.takes (fun deeper =>
      readRecord bound "struct variant Expr::Link" (deeper.map linkFormat))
      fun _ ⟨_, body, hlabel, hbody, hrecord⟩ => ?_
    have hinner : body.length ≤ bound := Nat.le_trans
      (hrecord.value_length_le (List.mem_append_right _ List.mem_cons_self)) hlength
    exact hrecord.takes (linkFormat_fills hlabel (ExprText.takes inner hbody hinner)) _ hlength

/-- Every spelling of expressions is read as the expressions. -/
theorem ExprTexts.takes (exprs : List Expr) {room : Nat} {texts : List Bytes}
    (htexts : ExprTexts exprs room texts) (hbound : ∀ text ∈ texts, text.length ≤ bound) :
    List.Forall₂ (Takes (readExpr bound room)) texts exprs :=
  match exprs with
  | [] => by
    obtain rfl : texts = [] := htexts
    exact .nil
  | expr :: exprs => by
    obtain ⟨text, more, hexpr, hmore, rfl⟩ := htexts
    obtain ⟨htext, hothers⟩ := List.forall_mem_cons.mp hbound
    exact .cons (ExprText.takes expr hexpr htext) (ExprTexts.takes exprs hmore hothers)

end

/-- Every spelling of a rule is read as the rule. -/
theorem RuleText.takes {rule : Rule} (htext : RuleText rule (room + 1) text)
    (hbound : text.length ≤ bound) :
    Takes (readRecord bound "struct Rule" (some (ruleFormat (readExpr bound room)))) text rule := by
  obtain ⟨name, body, hname, hbody, hrecord⟩ := Deeper.content room htext
  have hlength : body.length ≤ bound := Nat.le_trans
    (hrecord.value_length_le (List.mem_cons_of_mem _ List.mem_cons_self)) hbound
  exact hrecord.takes (ruleFormat_fills hname (ExprText.takes rule.expr hbody hlength)) _ hbound

end Expressions

/-- Whether a text begins with a spelling of a grammar that nests at most 127 arrays and objects
outside skipped values, whatever blanks stand in front of it and whatever stands behind it. -/
def Spells (grammar : Grammar) (text : String) : Prop :=
  ∃ lead spelling rest, Blanks lead ∧ GrammarText grammar 127 spelling ∧
    text.toUTF8.data.toList = lead ++ (spelling ++ rest)

/-- Every spelling of a grammar is read as the grammar, whatever stands behind it. -/
theorem GrammarText.gives {grammar : Grammar} {text lead : Bytes}
    (htext : GrammarText grammar 127 text) {bound : Nat} (hbound : text.length ≤ bound)
    (hlead : Blanks lead) (rest : Bytes) :
    Gives (readGrammar bound) (lead ++ (text ++ rest)) grammar rest := by
  obtain ⟨rules, hdeeper, hrecord⟩ := Deeper.content 126 htext
  have hlisted := Deeper.content 125 hdeeper
  have hlength : rules.length ≤ bound :=
    Nat.le_trans (hrecord.value_length_le List.mem_cons_self) hbound
  have hrules : Takes (readList bound (some (readRecord bound "struct Rule"
      (some (ruleFormat (readExpr bound 124)))))) rules grammar.rules := by
    refine hlisted.takes hlength fun texts htexts hlengths => ?_
    exact ((List.forall₂_and_left _ _).mpr ⟨hlengths, htexts.flip⟩).imp
      fun _ _ ⟨hlength, hrule⟩ => RuleText.takes hrule hlength
  exact readRecord_gives (grammarFormat_fills hrules) _ hrecord hbound hlead rest

/-- Every spelling of a grammar is read as the grammar. -/
theorem Spells.read {grammar : Grammar} {text : String} (hspells : Spells grammar text) :
    ofText text = .ok grammar := by
  obtain ⟨lead, spelling, rest, hlead, hspelling, htext⟩ := hspells
  have hbound : spelling.length ≤ (lead ++ (spelling ++ rest)).length := by
    simp only [List.length_append]
    omega
  have hread := hspelling.gives hbound hlead rest
  rw [ofText, htext, ofBytes, hread]

end PegTemplates.Document
