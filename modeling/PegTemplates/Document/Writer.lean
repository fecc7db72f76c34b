import PegTemplates.Document.Reader
import PegTemplates.Json.Value

/-!
# Writing grammar documents

The written form of a grammar: records are objects with their fields in declared
order, labels are always there, and variants without content are bare names.
-/

namespace PegTemplates.Document

open Json

/-- Written form of a label. -/
def labelValue : Option String → Value
  | some label => .text label
  | none => .null

/-- Written form of a variant with content. -/
def variantValue (variant : Variant) (content : Value) : Value :=
  .object [(variant.name, content)]

/-- Written form of a variant without content. -/
def bareValue (variant : Variant) : Value := .text variant.name

/-- Written form of a byte. -/
def byteValue (value : UInt8) : Value := .number value.toNat

mutual

/-- Written form of an expression. -/
def exprValue : Expr → Value
  | .empty => bareValue .empty
  | .byte value => variantValue .byte (byteValue value)
  | .nonTerminal name => variantValue .nonTerminal (.text name)
  | .sequence items => variantValue .sequence (.array (exprValues items))
  | .choice branches => variantValue .choice (.array (exprValues branches))
  | .optional inner => variantValue .optional (exprValue inner)
  | .zeroOrMore inner => variantValue .zeroOrMore (exprValue inner)
  | .oneOrMore inner => variantValue .oneOrMore (exprValue inner)
  | .beginCapture => bareValue .beginCapture
  | .endCapture => bareValue .endCapture
  | .tag name => variantValue .tag (.text name)
  | .fold label => variantValue .fold (.object [("label", labelValue label)])
  | .link label inner =>
    variantValue .link (.object [("label", labelValue label), ("inner", exprValue inner)])
  | .any => bareValue .any
  | .byteSet bytes => variantValue .byteSet (.array (bytes.map byteValue))
  | .followedBy inner => variantValue .followedBy (exprValue inner)
  | .notFollowedBy inner => variantValue .notFollowedBy (exprValue inner)

/-- Written forms of expressions. -/
def exprValues : List Expr → List Value
  | [] => []
  | expr :: rest => exprValue expr :: exprValues rest

end

/-- Written form of a rule. -/
def ruleValue (rule : Rule) : Value :=
  .object [("name", .text rule.name), ("expr", exprValue rule.expr)]

/-- Written form of a grammar. -/
def grammarValue (grammar : Grammar) : Value :=
  .object [("rules", .array (grammar.rules.map ruleValue))]

/-- Text of a grammar document. -/
def toText (grammar : Grammar) : String := (grammarValue grammar).compact

end PegTemplates.Document
