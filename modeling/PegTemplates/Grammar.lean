/-!
# Tree-building grammars

A grammar is a list of named rules in declaration order. A rule body is a
parsing expression extended by tree-building operators: capture delimiters,
node tags, labelled links and left folds. The expression forms that only steer
parsing are kept as well, although they never leave a trace in a shape.
-/

namespace PegTemplates

/-- Parsing expression with tree-building operators. -/
inductive Expr where
  /-- Always matches and consumes nothing. -/
  | empty
  /-- One literal byte. -/
  | byte (value : UInt8)
  /-- Reference to a rule by name. -/
  | nonTerminal (name : String)
  /-- The items one after the other, in the scope of the sequence itself. -/
  | sequence (items : List Expr)
  /-- The first branch that matches. -/
  | choice (branches : List Expr)
  /-- The inner expression or nothing. -/
  | optional (inner : Expr)
  /-- Any number of matches of the inner expression. -/
  | zeroOrMore (inner : Expr)
  /-- At least one match of the inner expression. -/
  | oneOrMore (inner : Expr)
  /-- Opens a node; a delimiter, not a wrapper. -/
  | beginCapture
  /-- Closes the innermost open node. -/
  | endCapture
  /-- Names the innermost open node. -/
  | tag (name : String)
  /-- Opens a node whose first child is what stands directly before it. -/
  | fold (label : Option String)
  /-- Makes the node matched inside a child of the open node. -/
  | link (label : Option String) (inner : Expr)
  /-- Any one byte. -/
  | any
  /-- Any one of the listed bytes. -/
  | byteSet (bytes : List UInt8)
  /-- Succeeds when the inner expression matches here, consuming nothing. -/
  | followedBy (inner : Expr)
  /-- Succeeds when the inner expression does not match here, consuming nothing. -/
  | notFollowedBy (inner : Expr)
  deriving Repr, BEq, Inhabited

namespace Expr

/-- The bytes of a literal text: one byte stands alone, any other number of
bytes forms a sequence. -/
def ofBytes : List UInt8 → Expr
  | [value] => byte value
  | bytes => sequence (bytes.map byte)

/-- Literal text, byte by byte in its UTF-8 form. -/
def text (literal : String) : Expr := ofBytes literal.toUTF8.data.toList

/-- A node around the items. -/
def capture (items : List Expr) : Expr := sequence (beginCapture :: items ++ [endCapture])

/-- A node around the items whose first child is what stands before it. -/
def leftFold (label : Option String) (items : List Expr) : Expr :=
  sequence (fold label :: items ++ [endCapture])

end Expr

/-- One named rule. -/
structure Rule where
  /-- Name that references use. -/
  name : String
  /-- Body of the rule. -/
  expr : Expr
  deriving Repr, BEq, Inhabited

/-- Rules in declaration order. -/
structure Grammar where
  /-- The rules; a name may occur more than once. -/
  rules : List Rule
  deriving Repr, BEq, Inhabited

/-- The first rule of that name. -/
def Grammar.rule? (grammar : Grammar) (name : String) : Option Rule :=
  grammar.rules.find? (·.name == name)

end PegTemplates
