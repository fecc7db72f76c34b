import PegTemplates.Grammar
import PegTemplates.Json.Record

/-!
# Grammar documents

A grammar document is a JSON record with the field `rules`. A rule has a name
and an expression. An expression is a variant: a bare name when it has no
content, otherwise an object whose only field is the name of the variant with
its content. Text behind the document is not looked at.

At most `nestingLimit` arrays and objects may be nested, not counting those
inside skipped values.
-/

namespace PegTemplates.Document

open Json

/-- Greatest number of nested arrays and objects. -/
def nestingLimit : Nat := 127

/-- Variants of an expression. -/
inductive Variant where
  /-- Matches nothing. -/
  | empty
  /-- A literal byte. -/
  | byte
  /-- A reference. -/
  | nonTerminal
  /-- Items in order. -/
  | sequence
  /-- Branches. -/
  | choice
  /-- An option. -/
  | optional
  /-- A repetition. -/
  | zeroOrMore
  /-- A repetition of at least one round. -/
  | oneOrMore
  /-- Opening of a node. -/
  | beginCapture
  /-- End of a node. -/
  | endCapture
  /-- Name of a node. -/
  | tag
  /-- Opening of a left-folded node. -/
  | fold
  /-- A child. -/
  | link
  /-- Any byte. -/
  | any
  /-- A set of bytes. -/
  | byteSet
  /-- Positive lookahead. -/
  | followedBy
  /-- Negative lookahead. -/
  | notFollowedBy
  deriving DecidableEq, Repr, Inhabited

/-- Name of a variant in a document. -/
def Variant.name : Variant → String
  | .empty => "empty"
  | .byte => "byte"
  | .nonTerminal => "non_terminal"
  | .sequence => "sequence"
  | .choice => "choice"
  | .optional => "optional"
  | .zeroOrMore => "zero_or_more"
  | .oneOrMore => "one_or_more"
  | .beginCapture => "begin_capture"
  | .endCapture => "end_capture"
  | .tag => "tag"
  | .fold => "fold"
  | .link => "link"
  | .any => "any"
  | .byteSet => "byte_set"
  | .followedBy => "and"
  | .notFollowedBy => "not"

/-- All variants, in the order in which messages list them. -/
def Variant.all : List Variant :=
  [.empty, .byte, .nonTerminal, .sequence, .choice, .optional, .zeroOrMore, .oneOrMore,
    .beginCapture, .endCapture, .tag, .fold, .link, .any, .byteSet, .followedBy, .notFollowedBy]

/-- The variant of that name. -/
def Variant.ofName? (name : String) : Option Variant := Variant.all.find? (·.name == name)

/-- Every variant is found by its name. -/
theorem Variant.ofName?_name (variant : Variant) : ofName? variant.name = some variant := by
  cases variant <;> decide

/-- Format of a fold: an optional label. -/
def foldFormat : RecordFormat (Option (Option String)) (Option String) where
  fields := [{
    name := "label"
    hasDefault := true
    filled := Option.isSome
    read := fun _ => return some (← readOptionalText) }]
  start := none
  finish := fun label => .ok (label.getD none)

/-- A link of which not everything has been read. -/
structure PartialLink where
  /-- The label, if it has been read. -/
  label : Option (Option String)
  /-- The body, if it has been read. -/
  inner : Option Expr
  deriving Inhabited

/-- Format of a link: an optional label and a body. -/
def linkFormat (inner : ReadM Expr) : RecordFormat PartialLink Expr where
  fields := [{
    name := "label"
    hasDefault := true
    filled := fun link => link.label.isSome
    read := fun link => return { link with label := some (← readOptionalText) } }, {
    name := "inner"
    hasDefault := false
    filled := fun link => link.inner.isSome
    read := fun link => return { link with inner := some (← inner) } }]
  start := ⟨none, none⟩
  finish := fun link =>
    match link.inner with
    | some body => .ok (.link (link.label.getD none) body)
    | none => .error "inner"

/-- Reads the content of a variant. Expressions directly inside are read by
`inner`, those inside one more array or object by `deeper`. -/
def readContent (bound : Nat) (inner : ReadM Expr) (deeper : Option (ReadM Expr)) :
    Variant → ReadM Expr
  | .empty => do
    readUnit
    return .empty
  | .any => do
    readUnit
    return .any
  | .beginCapture => do
    readUnit
    return .beginCapture
  | .endCapture => do
    readUnit
    return .endCapture
  | .byte => return .byte (← readByte)
  | .nonTerminal => return .nonTerminal (← readText)
  | .tag => return .tag (← readText)
  | .sequence => return .sequence (← readList bound deeper)
  | .choice => return .choice (← readList bound deeper)
  | .byteSet => return .byteSet (← readList bound (deeper.map fun _ => readByte))
  | .optional => return .optional (← inner)
  | .zeroOrMore => return .zeroOrMore (← inner)
  | .oneOrMore => return .oneOrMore (← inner)
  | .followedBy => return .followedBy (← inner)
  | .notFollowedBy => return .notFollowedBy (← inner)
  | .fold =>
    return .fold (← readRecord bound "struct variant Expr::Fold" (deeper.map fun _ => foldFormat))
  | .link => readRecord bound "struct variant Expr::Link" (deeper.map linkFormat)

/-- The expression of a variant without content. -/
def bareExpr (variant : Variant) : ReadM Expr :=
  match variant with
  | .empty => return .empty
  | .any => return .any
  | .beginCapture => return .beginCapture
  | .endCapture => return .endCapture
  | .fold | .link => within (.field variant.name)
      (fail (.wrongType .unitVariant "struct variant"))
  | _ => within (.field variant.name) (fail (.wrongType .unitVariant "newtype variant"))

/-- Reads the name of a variant from behind its opening quote. -/
def readVariant : ReadM Variant := do
  let name ← readString
  match Variant.ofName? name with
  | some variant => return variant
  | none => fail (.unknownVariant name (Variant.all.map Variant.name))

/-- Reads the name of a variant that is written as the key of an object. -/
def readVariantKey : ReadM Variant := do
  match ← peek with
  | none => fail .endInObject
  | some b =>
    if b = quote then
      advance
      readVariant
    else if b = closeBrace then fail .expectedValue
    else fail .keyNotString

/-- Takes the end of an object with one field. -/
def endVariant : ReadM Unit := do
  match ← peek with
  | none => fail .endInObject
  | some b => if b = closeBrace then advance else fail .expectedValue

/-- Reads an expression whose content is read by `content`. -/
def readVariantWith (content : Option (Variant → ReadM Expr)) : ReadM Expr := do
  let b ← firstByte
  if b = openBrace then
    descend (content.map fun read => do
      let variant ← readVariantKey
      readColon
      let expr ← within (.field variant.name) (read variant)
      endVariant
      return expr)
  else if b = quote then
    advance
    bareExpr (← readVariant)
  else fail .expectedValue

/-- Reads an expression that may hold that many nested arrays and objects. -/
def readExpr (bound : Nat) : Nat → ReadM Expr
  | 0 => readVariantWith none
  | 1 => readVariantWith (some (readContent bound (readExpr bound 0) none))
  | depth + 2 =>
    readVariantWith (some
      (readContent bound (readExpr bound (depth + 1)) (some (readExpr bound depth))))

/-- A rule of which not everything has been read. -/
structure PartialRule where
  /-- The name, if it has been read. -/
  name : Option String
  /-- The body, if it has been read. -/
  expr : Option Expr
  deriving Inhabited

/-- Format of a rule: its name and its body. -/
def ruleFormat (readBody : ReadM Expr) : RecordFormat PartialRule Rule where
  fields := [{
    name := "name"
    hasDefault := false
    filled := fun rule => rule.name.isSome
    read := fun rule => return { rule with name := some (← readText) } }, {
    name := "expr"
    hasDefault := false
    filled := fun rule => rule.expr.isSome
    read := fun rule => return { rule with expr := some (← readBody) } }]
  start := ⟨none, none⟩
  finish := fun rule =>
    match rule.name, rule.expr with
    | some name, some body => .ok ⟨name, body⟩
    | some _, none => .error "expr"
    | none, _ => .error "name"

/-- Format of a grammar: its rules. -/
def grammarFormat (bound : Nat) (readRule : ReadM Rule) :
    RecordFormat (Option (List Rule)) Grammar where
  fields := [{
    name := "rules"
    hasDefault := false
    filled := Option.isSome
    read := fun _ => return some (← readList bound (some readRule)) }]
  start := none
  finish := fun rules =>
    match rules with
    | some rules => .ok ⟨rules⟩
    | none => .error "rules"

/-- Reads a grammar. Three levels of nesting lie between the document and the
bodies of its rules. -/
def readGrammar (bound : Nat) : ReadM Grammar :=
  readRecord bound "struct Grammar" (some (grammarFormat bound
    (readRecord bound "struct Rule" (some (ruleFormat (readExpr bound (nestingLimit - 3)))))))

/-- The grammar of a document, or the first problem in it. -/
def ofBytes (bytes : Bytes) : Except Fault Grammar :=
  match readGrammar bytes.length bytes with
  | .ok (grammar, _) => .ok grammar
  | .error fault => .error fault

/-- The grammar of a document, or the first problem in it. -/
def ofText (text : String) : Except Fault Grammar := ofBytes text.toUTF8.data.toList

end PegTemplates.Document
