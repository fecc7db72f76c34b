import PegTemplates.Json.Value
import PegTemplates.TagSearch

/-!
# View of a registry

A registry as it is shown for inspection: the display of every rule body, and
for every shape its display with its tags, or with the error that keeps them
from being found.
-/

namespace PegTemplates

open Json

/-- One shape as it is shown. -/
structure ShapeView where
  /-- Number of the shape. -/
  id : ShapeId
  /-- Name of the shape. -/
  name : Option String
  /-- Display of the shape. -/
  elements : String
  /-- Tags in order of discovery; none if one of them cannot be found. -/
  tags : List String
  /-- Why the tags cannot be found. -/
  error : Option String
  deriving DecidableEq, Repr, Inhabited

/-- A registry as it is shown. -/
structure RegistryView where
  /-- Names and displays of the rule bodies in order of first registration. -/
  rules : List (String × String)
  /-- Shapes in order of numbers. -/
  shapes : List ShapeView
  deriving DecidableEq, Repr, Inhabited

/-- View of a shape. -/
def Registry.viewShape (registry : Registry) (shape : Shape) : ShapeView :=
  match registry.tagNames shape.elements with
  | .ok tags => ⟨shape.id, shape.name, displaySequence shape.elements, tags, none⟩
  | .error reason =>
    ⟨shape.id, shape.name, displaySequence shape.elements, [], some reason.message⟩

/-- View of a registry. -/
def Registry.view (registry : Registry) : RegistryView where
  rules := registry.rules.map fun body => (body.name, displaySequence body.elements)
  shapes := registry.shapes.map registry.viewShape

/-- A field that is left out when there is nothing to write. -/
def optionalField (name : String) : Option String → List (String × Value)
  | some text => [(name, .text text)]
  | none => []

/-- Written form of a shape as it is shown. -/
def ShapeView.value (view : ShapeView) : Value :=
  .object ([("id", .number view.id)] ++ optionalField "name" view.name ++
    [("elements", .text view.elements), ("tags", .array (view.tags.map .text))] ++
    optionalField "error" view.error)

/-- Written form of a registry as it is shown. -/
def RegistryView.value (view : RegistryView) : Value :=
  .object [("rules", .object (view.rules.map fun (name, display) => (name, .text display))),
    ("shapes", .array (view.shapes.map ShapeView.value))]

end PegTemplates
