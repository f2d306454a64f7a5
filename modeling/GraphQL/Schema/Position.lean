import GraphQL.Schema

/-!
Where a value stands in a schema during execution: a type with the lists and null refusals around
it.
-/

namespace GraphQL

/-- A type as it is met during execution. -/
inductive TypePosition where
  | concrete (t : TypeDef)
  | nonNull (inner : TypePosition)
  | list (element : TypePosition) (size : Option Nat)

namespace TypePosition

/-- `true` when null is refused. -/
def isNonNull : TypePosition → Bool
  | nonNull _ => true
  | _ => false

/-- The type under all wrappers. -/
def innermost : TypePosition → TypeDef
  | concrete t => t
  | nonNull inner => inner.innermost
  | list element _ => element.innermost

/-- The element of a list, null refused or not. -/
def element? : TypePosition → Option TypePosition
  | list element _ => some element
  | nonNull (list element _) => some element
  | _ => none

/-- A position as written. -/
def toText : TypePosition → Text
  | concrete t => t.name
  | nonNull inner => inner.toText ++ lit "!"
  | list element _ => lit "[" ++ element.toText ++ lit "]"

/-- Wraps a position in a refusal of null if asked to. -/
def wrap (refusesNull : Bool) (p : TypePosition) : TypePosition :=
  if refusesNull then nonNull p else p

end TypePosition

namespace Schema

def position (s : Schema) : TypeRef → Except Violation TypePosition
  | .named name nonNull => (.wrap nonNull <| .concrete ·) <$> s.requireType name
  | .list element size nonNull => (.wrap nonNull <| .list · size) <$> s.position element

end Schema

end GraphQL
