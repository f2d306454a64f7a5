import GraphQL.Execution.Arguments
import GraphQL.Execution.Error
import GraphQL.Schema.Position

/-!
Where execution stands: what is selected, on which type, and on which way from the operation's root.
A resolver is given the cursor of its field.
-/

namespace GraphQL

/-- What stays the same all through a request. -/
structure Scope where
  schema : Schema
  fragments : List Fragment
  vars : Variables
  context : Option Text
  concurrent : Bool

namespace Scope

/-- The first fragment of a name. -/
def fragment? (s : Scope) (name : Text) : Option Fragment :=
  s.fragments.find? (·.name.value == name)

/-- The fragment of a name that has to be there. -/
def requireFragment (s : Scope) (name : Text) : Except Violation Fragment :=
  match s.fragment? name with
  | some f => .ok f
  | none => .error (.fragmentNotFound name)

end Scope

structure SelectedField where
  head : FieldHead
  declaration : FieldDef

/-- A place in a request. Selections are absent where nothing is selected below a field, and the
field is absent at the root. -/
structure Cursor where
  scope : Scope
  selections : Option SelectionSet
  currentType : TypePosition
  path : FieldPath
  field : Option SelectedField
  serial : Bool

namespace Cursor

/-- The place in the document: that of the innermost field. -/
def location (c : Cursor) : Position := c.path.location

/-- `true` when the fields selected here are resolved side by side. -/
def isConcurrent (c : Cursor) : Bool := c.scope.concurrent && !c.serial

/-- The same place, but fields are resolved one after another. -/
def serialized (c : Cursor) : Cursor := { c with serial := true }

/-- The text that the request was given as context. -/
def contextText (c : Cursor) : Except Violation Text :=
  match c.scope.context with
  | some t => .ok t
  | none => .error .contextType

def root (scope : Scope) (selections : SelectionSet) (type : TypeDef) (location : Position) :
    Cursor :=
  ⟨scope, some selections, .concrete type, .root location, none, false⟩

/-- The place of a field selected here. -/
def atField (c : Cursor) (field : SelectedField) (selections : Option SelectionSet) :
    Except Violation Cursor := do
  let type ← c.scope.schema.position field.declaration.type
  return ⟨c.scope, selections, type, c.path.field field.head.responseName field.head.span.start,
    some field, false⟩

/-- The place inside an inline fragment: on the type of its condition, if that is known. -/
def atInline (c : Cursor) (condition : Option (Located Text)) (selections : SelectionSet) :
    Cursor :=
  let type := (condition.bind fun name => c.scope.schema.type? name.value).map TypePosition.concrete
  { c with selections := some selections, currentType := type.getD c.currentType }

/-- The place of an item of a list. -/
def atIndex (c : Cursor) (i : Nat) : Cursor :=
  { c with currentType := c.currentType.element?.getD c.currentType, path := c.path.index i }

end Cursor

end GraphQL
