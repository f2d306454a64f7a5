import GraphQL.Parser.Tokens
import GraphQL.Schema

/-!
Parsing literals. The type that is expected, where it is known, decides how scalars are read; it
never makes a literal fail that reads without it, except an object where no object can stand.
-/

namespace GraphQL

/-- The scalar type that a literal has by itself. -/
def Literal.typeName : Literal → Text
  | .int _ => lit "Int"
  | .float _ => lit "Float"
  | .string .. => lit "String"

/-- The error about a schema without the scalar type that a literal has by itself. -/
def Literal.missingType : Literal → ParseError
  | .int _ => .expectedScalar (lit "There needs to be an Int type")
  | .float _ => .expectedScalar (lit "There needs to be a Float type")
  | .string .. => .expectedScalar (lit "There needs to be a String type")

/-- Reads a literal as the type it has by itself. -/
def Schema.inferScalar (s : Schema) (l : Literal) : Except ParseError Scalar :=
  match (s.type? l.typeName).bind TypeDef.scalar? with
  | some d => (d.parse l).mapError Rejection.toParseError
  | none => .error l.missingType

/-- Reads a literal as the expected scalar. What that refuses is read as what it is by itself. -/
def Schema.readScalar (s : Schema) (expected : Option ScalarDef) (l : Literal) :
    Except ParseError Scalar :=
  match expected with
  | some d =>
    match d.parse l with
    | .ok value => .ok value
    | .error _ => s.inferScalar l
  | none => s.inferScalar l

namespace Parser

/-- The value that a name is written for. -/
def nameValue (name : Text) : InputValue :=
  if name == lit "true" then .scalar (.boolean true)
  else if name == lit "false" then .scalar (.boolean false)
  else if name == lit "null" then .null
  else .enum name

def variableRef : Parser (Located InputValue) := do
  let dollar ← mark .dollar
  let n ← name
  return ⟨.var n.value, ⟨dollar.span.start, n.span.stop⟩⟩

def scalarLiteral (schema : Schema) (expected : Option TypeDef) (l : Literal) :
    Parser (Located InputValue) := do
  let t ← next
  match schema.readScalar (expected.bind TypeDef.scalar?) l with
  | .ok value => return ⟨.scalar value, t.span⟩
  | .error error => failAt error t.span

/-- The type expected of a field of an object. -/
def fieldType (schema : Schema) (expected : Option TypeDef) (key : Text) : Option TypeDef :=
  (expected.bind (·.inputField? key)).bind fun field => schema.lookup? field.type

/-- A key, a colon, and what `value` reads for that key. -/
def entry (value : Text → Parser (Located InputValue)) :
    Parser (Located Text × Located InputValue) := do
  let key ← name
  let _ ← mark .colon
  let v ← value key.value
  return (key, v)

/-- `true` where an object may stand: at an input object, or where nothing is expected. -/
def admitsObject : Option TypeDef → Bool
  | none => true
  | some (.inputObject _) => true
  | some _ => false

/-- A literal nested less than `fuel` deep. -/
def literalUpTo (schema : Schema) (isConst : Bool) :
    (fuel : Nat) → (expected : Option TypeDef) → Parser (Located InputValue)
  | 0, _ => unexpected
  | fuel + 1, expected => do
    match (← peek).value with
    | .mark .bracketOpen =>
      let items ← fueled <| delimited (.mark .bracketOpen) (.mark .bracketClose)
        (literalUpTo schema isConst fuel expected)
      return items.map .list
    | .mark .curlyOpen =>
      if admitsObject expected then
        let fields ← fueled <| delimited (.mark .curlyOpen) (.mark .curlyClose)
          (entry fun key => literalUpTo schema isConst fuel (fieldType schema expected key))
        return fields.map .object
      else unexpected
    | .mark .dollar => if isConst then unexpected else variableRef
    | .scalar l => scalarLiteral schema expected l
    | .name text =>
      let t ← next
      return ⟨nameValue text, t.span⟩
    | _ => unexpected

/-- A literal; a constant one holds no variables. -/
def literal (schema : Schema) (isConst : Bool) (expected : Option TypeDef) :
    Parser (Located InputValue) :=
  fueled fun fuel => literalUpTo schema isConst fuel expected

end Parser

end GraphQL
