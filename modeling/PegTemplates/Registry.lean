import PegTemplates.AnalysisError
import PegTemplates.Element

/-!
# The registry of shapes and rule bodies

Every captured shape by its number, and every rule body by its name. Shapes
are numbered densely in the order of their registration. Rule bodies keep the
position of their first registration, and a later body of the same name takes
the place of the earlier one.
-/

namespace PegTemplates

/-- One captured shape. -/
structure Shape where
  /-- Number of the shape, its position in the registry. -/
  id : ShapeId
  /-- Name of a rule whose whole body is this capture. -/
  name : Option String
  /-- What stands between the delimiters of the capture. -/
  elements : List Element
  deriving Repr, BEq, Inhabited

/-- Gives a name to a shape that has none. -/
def Shape.nameOnce (name : String) (shape : Shape) : Shape :=
  { shape with name := shape.name <|> some name }

/-- What a reference to a rule stands for. -/
structure RuleBody where
  /-- Name of the rule. -/
  name : String
  /-- Top-level sequence of the rule. -/
  elements : List Element
  deriving Repr, BEq, Inhabited

/-- Registered shapes and rule bodies. -/
structure Registry where
  /-- Shapes in order of their numbers. -/
  shapes : List Shape
  /-- Rule bodies in order of first registration. -/
  rules : List RuleBody
  deriving Repr, BEq, Inhabited

namespace Registry

/-- Nothing registered. -/
def empty : Registry := ⟨[], []⟩

/-- Number of shapes, and the number that the next shape will get. -/
def size (registry : Registry) : Nat := registry.shapes.length

/-- Registers a shape under the next number. -/
def register (registry : Registry) (elements : List Element) (name : Option String) : Registry :=
  { registry with shapes := registry.shapes ++ [⟨registry.size, name, elements⟩] }

/-- The shape of that number. -/
def shape? (registry : Registry) (id : ShapeId) : Option Shape := registry.shapes[id]?

/-- The body of the rule of that name. -/
def body? (registry : Registry) (name : String) : Option RuleBody :=
  registry.rules.find? (·.name == name)

/-- The body of the rule of that name, or the error of a reference to it. -/
def body (registry : Registry) (name : String) : Except AnalysisError RuleBody :=
  match registry.body? name with
  | some found => .ok found
  | none => .error (.undefinedRule name)

/-- The number of the shape that makes up the whole sequence. -/
def soleCapture : List Element → Option ShapeId
  | [.captured id] => some id
  | _ => none

/-- The shape that makes up the whole body of the rule of that name. -/
def shapeOfRule? (registry : Registry) (name : String) : Option Shape := do
  let found ← registry.body? name
  let id ← soleCapture found.elements
  registry.shape? id

/-- Puts a body in the place of the one of its name, or at the end. -/
def putBody (body : RuleBody) : List RuleBody → List RuleBody
  | [] => [body]
  | first :: rest => if first.name = body.name then body :: rest else first :: putBody body rest

/-- Registers a rule body. The shape that makes up the whole body takes the
name of the rule unless it already has one. -/
def registerRule (registry : Registry) (name : String) (elements : List Element) : Registry where
  shapes := match soleCapture elements with
    | some id => registry.shapes.modify id (Shape.nameOnce name)
    | none => registry.shapes
  rules := putBody ⟨name, elements⟩ registry.rules

/-- A new shape gets the number of shapes before it. -/
theorem shape?_register (registry : Registry) (elements : List Element) (name : Option String) :
    (registry.register elements name).shape? registry.size =
      some ⟨registry.size, name, elements⟩ := by
  simp [register, shape?, size]

/-- Registering a rule body changes no number of shapes. -/
theorem size_registerRule (registry : Registry) (name : String) (elements : List Element) :
    (registry.registerRule name elements).size = registry.size := by
  simp only [registerRule, size]
  split <;> simp

mutual

/-- The first undefined name that the element mentions, link bodies included. -/
def undefinedIn? (registry : Registry) : Element → Option AnalysisError
  | .nonTerminal name _ =>
    match registry.body? name with
    | some _ => none
    | none => some (.undefinedRule name)
  | .captured _ | .byte _ | .tag _ => none
  | .linked _ inner => registry.firstUndefined? inner
  | .choice branches => registry.undefinedInBranches? branches
  | .zeroOrMore body | .oneOrMore body | .optional body => registry.firstUndefined? body

/-- The first undefined name that the sequence mentions. Bodies of rules and of
other shapes are not looked into. -/
def firstUndefined? (registry : Registry) : List Element → Option AnalysisError
  | [] => none
  | element :: rest => registry.undefinedIn? element <|> registry.firstUndefined? rest

/-- The first undefined name that the branches mention. -/
def undefinedInBranches? (registry : Registry) : List (List Element) → Option AnalysisError
  | [] => none
  | branch :: rest => registry.firstUndefined? branch <|> registry.undefinedInBranches? rest

end

/-- Every shape whose own sequence mentions an undefined name, with the first
such name. -/
def undefinedReferences (registry : Registry) : List (ShapeId × AnalysisError) :=
  registry.shapes.filterMap fun shape =>
    (registry.firstUndefined? shape.elements).map (shape.id, ·)

mutual

/-- Number of references in an element, link bodies included. -/
def referencesIn : Element → Nat
  | .nonTerminal _ _ => 1
  | .captured _ | .byte _ | .tag _ => 0
  | .linked _ inner => references inner
  | .choice branches => referencesInBranches branches
  | .zeroOrMore body | .oneOrMore body | .optional body => references body

/-- Number of references in a sequence. -/
def references : List Element → Nat
  | [] => 0
  | element :: rest => referencesIn element + references rest

/-- Number of references in the branches of a choice. -/
def referencesInBranches : List (List Element) → Nat
  | [] => 0
  | branch :: rest => references branch + referencesInBranches rest

end

/-- A bound on the number of different sites that can be met from a sequence. -/
def siteBound (registry : Registry) (elements : List Element) : Nat :=
  references elements + references (registry.rules.flatMap (·.elements))

end Registry

end PegTemplates
