import GraphQL.Text

/-!
References to types as they are written: a name or a list, with `!` after what may not be null.
-/

namespace GraphQL

/-- A reference to a type. A list may say how many items it expects; its text does not show that. -/
inductive TypeRef where
  | named (name : Text) (nonNull : Bool)
  | list (element : TypeRef) (size : Option Nat) (nonNull : Bool)
deriving DecidableEq, Repr

namespace TypeRef

/-- `true` when null is refused. -/
def isNonNull : TypeRef → Bool
  | named _ nonNull => nonNull
  | list _ _ nonNull => nonNull

def isList : TypeRef → Bool
  | named .. => false
  | list .. => true

/-- The same type, but null is allowed or refused as said. -/
def withNonNull (nonNull : Bool) : TypeRef → TypeRef
  | named name _ => named name nonNull
  | list element size _ => list element size nonNull

/-- The same type with null allowed. -/
def nullable (t : TypeRef) : TypeRef := t.withNonNull false

/-- The same type with null refused. -/
def required (t : TypeRef) : TypeRef := t.withNonNull true

def innermostName : TypeRef → Text
  | named name _ => name
  | list element _ _ => element.innermostName

def element? : TypeRef → Option TypeRef
  | named .. => none
  | list element _ _ => some element

/-- How many items a list is expected to have. -/
def size? : TypeRef → Option Nat
  | named .. => none
  | list _ size _ => size

@[simp] theorem isNonNull_withNonNull (nonNull : Bool) (t : TypeRef) :
    (t.withNonNull nonNull).isNonNull = nonNull := by
  cases t <;> rfl

@[simp] theorem innermostName_withNonNull (nonNull : Bool) (t : TypeRef) :
    (t.withNonNull nonNull).innermostName = t.innermostName := by
  cases t <;> rfl

/-- The mark of a type that refuses null. -/
def bang (nonNull : Bool) : Text := if nonNull then lit "!" else []

/-- A reference as written. -/
def toText : TypeRef → Text
  | named name nonNull => name ++ bang nonNull
  | list element _ nonNull => lit "[" ++ element.toText ++ lit "]" ++ bang nonNull

end TypeRef

end GraphQL
