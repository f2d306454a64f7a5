import GraphQL.InputValue
import GraphQL.Json
import GraphQL.Value

/-!
Values to and from JSON. Numbers become integers when they are written as integers and fit 32 bits,
and floats otherwise. Of a repeated key the first place and the last value count, both ways.
-/

namespace GraphQL

namespace Scalar

def toJson : Scalar → Json
  | int n => .int n.toInt
  | float x => .float x
  | string t => .string t
  | boolean b => .bool b

/-- An integer that fits 32 bits stays one; any other becomes the nearest float. -/
def ofInteger (n : Int) : Scalar :=
  (ofInt? n).getD (float (.ofInt n))

end Scalar

namespace Value

mutual

def toJson : Value → Json
  | null => .null
  | scalar s => s.toJson
  | list items => .array (itemsToJson items)
  | object fields => .object (fieldsToJson [] fields)

def itemsToJson : List Value → List Json
  | [] => []
  | v :: rest => v.toJson :: itemsToJson rest

/-- Puts fields as JSON trees after those already written. -/
def fieldsToJson (written : Keyed Json) : List (Text × Value) → Keyed Json
  | [] => written
  | (k, v) :: rest => fieldsToJson (written.put k v.toJson) rest

end

mutual

/-- The value that a JSON tree stands for. -/
def ofJson : Json → Value
  | .null => null
  | .bool b => scalar (.boolean b)
  | .int n => scalar (.ofInteger n)
  | .float x => scalar (.float x)
  | .string t => scalar (.string t)
  | .array items => list (itemsOfJson items)
  | .object fields => object (fieldsOfJson [] fields)

/-- The items that JSON trees stand for. -/
def itemsOfJson : List Json → List Value
  | [] => []
  | j :: rest => ofJson j :: itemsOfJson rest

/-- Puts the fields that JSON trees stand for after those already read. -/
def fieldsOfJson (read : Keyed Value) : List (Text × Json) → Keyed Value
  | [] => read
  | (k, j) :: rest => fieldsOfJson (read.put k (ofJson j)) rest

end

end Value

namespace InputValue

mutual

/-- The literal that a JSON tree stands for. -/
def ofJson : Json → InputValue
  | .null => null
  | .bool b => scalar (.boolean b)
  | .int n => scalar (.ofInteger n)
  | .float x => scalar (.float x)
  | .string t => scalar (.string t)
  | .array items => list (itemsOfJson items)
  | .object fields => object (fieldsOfJson fields)

/-- The items that JSON trees stand for. -/
def itemsOfJson : List Json → List (Located InputValue)
  | [] => []
  | j :: rest => .unlocated (ofJson j) :: itemsOfJson rest

/-- The fields that JSON trees stand for. -/
def fieldsOfJson : List (Text × Json) → List (Located Text × Located InputValue)
  | [] => []
  | (k, j) :: rest => (.unlocated k, .unlocated (ofJson j)) :: fieldsOfJson rest

end

end InputValue

structure NotAnObject where
  typeName : Text
deriving DecidableEq, Repr

namespace NotAnObject

def message (e : NotAnObject) : Text :=
  lit "Variables must be a JSON object, got " ++ e.typeName

end NotAnObject

namespace Variables

/-- The variables in a JSON object. Null stands for no variables; anything else is refused. -/
def ofJson : Json → Except NotAnObject Variables
  | .null => .ok []
  | .object fields => .ok (fields.foldl (fun vars (k, j) => Keyed.putNew vars k (.ofJson j)) [])
  | j => .error ⟨j.typeName⟩

end Variables

end GraphQL
