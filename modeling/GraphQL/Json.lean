import GraphQL.Number.Binary64
import GraphQL.Text

/-!
JSON as an ordered tree: the fields of an object keep their order.
-/

namespace GraphQL

/-- A JSON value. Integers and floats are told apart by how they are written. -/
inductive Json where
  | null
  | bool (b : Bool)
  | int (n : Int)
  | float (x : Binary64)
  | string (text : Text)
  | array (items : List Json)
  | object (fields : List (Text × Json))
deriving Inhabited

namespace Json

def typeName : Json → Text
  | .null => lit "null"
  | .bool _ => lit "boolean"
  | .int _ => lit "number"
  | .float _ => lit "number"
  | .string _ => lit "string"
  | .array _ => lit "array"
  | .object _ => lit "object"

/-- A field of an object; `none` for anything else. -/
def field? (key : Text) : Json → Option Json
  | .object fields => fields.lookup key
  | _ => none

mutual

/-- How many values lie inside one another, the outermost included. -/
def depth : Json → Nat
  | .array items => depthOfItems items + 1
  | .object fields => depthOfFields fields + 1
  | _ => 1

def depthOfItems : List Json → Nat
  | [] => 0
  | j :: rest => max j.depth (depthOfItems rest)

def depthOfFields : List (Text × Json) → Nat
  | [] => 0
  | (_, j) :: rest => max j.depth (depthOfFields rest)

end

/-- An object from keys given as strings. -/
def record (fields : List (String × Json)) : Json :=
  .object (fields.map fun (key, j) => (lit key, j))

end Json

end GraphQL
