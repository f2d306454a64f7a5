import GraphQL.Schema

/-!
How types relate: which objects an interface or a union stands for, which types overlap, and when
values of one type may stand where another is asked for.
-/

namespace GraphQL.Schema

/-- `true` for an object that implements the interface. -/
def implements (name : Text) : TypeDef → Bool
  | .object d => d.interfaces.contains name
  | _ => false

/-- The types that a type stands for: the members of a union in declared order, the implementing
objects of an interface by name, none for any other type. -/
def possible (s : Schema) : TypeDef → List TypeDef
  | .union d => d.members.filterMap s.type?
  | .interface d => s.typeList.filter (implements d.name)
  | _ => []

/-- The types that an abstract type stands for. -/
def possibleTypes (s : Schema) (t : TypeDef) : Except Violation (List TypeDef) :=
  if t.isAbstract then .ok (s.possible t) else .error .notAbstract

/-- `true` when the first type stands for the second, among others. -/
def isPossible (s : Schema) (t candidate : TypeDef) : Bool :=
  (s.possible t).any (·.name == candidate.name)

/-- `true` when an abstract type stands for the second. -/
def isPossibleType (s : Schema) (t candidate : TypeDef) : Except Violation Bool :=
  if t.isAbstract then .ok (s.isPossible t candidate) else .error .notAbstract

/-- `true` when some object can be of both types. -/
def typeOverlap (s : Schema) (a b : TypeDef) : Bool :=
  if a.name == b.name then true
  else if a.isAbstract then
    if b.isAbstract then (s.possible a).any (s.isPossible b) else s.isPossible a b
  else s.isPossible b a

/-- `true` when values of the first type may stand where the second is asked for. -/
def isNamedSubtype (s : Schema) (sub super : Text) : Bool :=
  if sub == super then true
  else match s.type? sub, s.type? super with
    | some a, some b => s.isPossible b a
    | _, _ => false

/-- Subtyping of references. To refuse null is stricter than to allow it, and lists follow their
elements. -/
def isSubtype (s : Schema) : (sub super : TypeRef) → Bool
  | .named a m, .named b n => (m || !n) && s.isNamedSubtype a b
  | .list a _ m, .list b _ n => (m || !n) && s.isSubtype a b
  | _, _ => false

/-- `true` when a fragment with the type condition applies to an object of the named type. Types
that are not the same have to exist. -/
def meetsCondition (s : Schema) (condition objectName : Text) : Except Violation Bool :=
  if condition == objectName then .ok true
  else do
    let t ← s.requireType condition
    let o ← s.requireType objectName
    return t.isAbstract && s.isPossible t o

end GraphQL.Schema
