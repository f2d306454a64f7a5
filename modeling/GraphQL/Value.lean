import GraphQL.Keyed
import GraphQL.Value.Scalar

/-!
Values that execution produces. The fields of an object keep the order they were put in; that order
is what clients see.
-/

namespace GraphQL

inductive Value where
  | null
  | scalar (s : Scalar)
  | list (items : List Value)
  | object (fields : List (Text × Value))
deriving Inhabited

namespace Value

def ofText (t : Text) : Value := .scalar (.string t)

/-- `true` for null. -/
def isNull : Value → Bool
  | null => true
  | _ => false

def toString? : Value → Option Text
  | scalar s => s.toString?
  | _ => none

mutual

/-- Equality, with floats compared as numbers and fields compared in order. -/
protected def beq : Value → Value → Bool
  | null, null => true
  | scalar s, scalar t => s == t
  | list xs, list ys => beqItems xs ys
  | object xs, object ys => beqFields xs ys
  | _, _ => false

def beqItems : List Value → List Value → Bool
  | [], [] => true
  | x :: xs, y :: ys => x.beq y && beqItems xs ys
  | _, _ => false

def beqFields : List (Text × Value) → List (Text × Value) → Bool
  | [], [] => true
  | (k, x) :: xs, (l, y) :: ys => k == l && x.beq y && beqFields xs ys
  | _, _ => false

end

instance : BEq Value := ⟨Value.beq⟩

mutual

/-- Compact text of a value, in the manner of a literal but with quoted keys. -/
def toText : Value → Text
  | null => lit "null"
  | scalar s => s.toText
  | list items => lit "[" ++ Text.join (lit ", ") (itemTexts items) ++ lit "]"
  | object fields => lit "\x7b" ++ Text.join (lit ", ") (fieldTexts fields) ++ lit "\x7d"

def itemTexts : List Value → List Text
  | [] => []
  | v :: rest => v.toText :: itemTexts rest

def fieldTexts : List (Text × Value) → List Text
  | [] => []
  | (k, v) :: rest => (Scalar.quote k ++ lit ": " ++ v.toText) :: fieldTexts rest

end

end Value

end GraphQL
