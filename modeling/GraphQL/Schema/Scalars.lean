import GraphQL.Schema.Type
import GraphQL.Token.Lexer

/-!
The scalars that every schema starts with.
-/

namespace GraphQL.Scalars

/-- Refuses a literal as a token that does not fit. -/
def refuse {α : Type} (l : Literal) : Except Rejection α :=
  .error (.parse (.ofToken (.scalar l)))

def cookedString (l : Literal) : Except Rejection Scalar :=
  match l.cooked with
  | .ok text => .ok (.string text)
  | .error e => .error (.lexer e)

/-- Accepts integers of 32 bits. -/
def parseInt (l : Literal) : Except Rejection Scalar :=
  match l with
  | .int digits =>
    match (Decimal.readInt? digits).bind Scalar.ofInt? with
    | some n => .ok n
    | none => refuse l
  | _ => refuse l

/-- Reads the number that a literal writes. -/
def parseDigits (l : Literal) (digits : Text) : Except Rejection Scalar :=
  match Decimal.readBinary64? digits with
  | some x => .ok (.float x)
  | none => refuse l

/-- Accepts numbers in the range of doubles. -/
def parseFloat (l : Literal) : Except Rejection Scalar :=
  match l with
  | .int digits => parseDigits l digits
  | .float digits => parseDigits l digits
  | .string .. => refuse l

def parseString (l : Literal) : Except Rejection Scalar :=
  match l with
  | .string .. => cookedString l
  | _ => refuse l

/-- Accepts nothing: truth values are written as names. -/
def parseBoolean (l : Literal) : Except Rejection Scalar := refuse l

/-- Accepts strings and the digits of integers. -/
def parseId (l : Literal) : Except Rejection Scalar :=
  match l with
  | .int digits => .ok (.string digits)
  | .float _ => refuse l
  | .string .. => cookedString l

/-- Whole numbers of 32 bits. -/
def int : ScalarDef :=
  ⟨lit "Int",
    some (lit "The `Int` scalar type represents non-fractional signed whole numeric values."),
    none, parseInt⟩

/-- Double-precision numbers. -/
def float : ScalarDef :=
  ⟨lit "Float",
    some (lit "The `Float` scalar type represents signed double-precision fractional values."),
    none, parseFloat⟩

/-- Text. -/
def string : ScalarDef :=
  ⟨lit "String", some (lit "The `String` scalar type represents textual data."), none, parseString⟩

/-- Truth values. -/
def boolean : ScalarDef :=
  ⟨lit "Boolean", some (lit "The `Boolean` scalar type represents `true` or `false`."), none,
    parseBoolean⟩

/-- Identifiers. -/
def id : ScalarDef :=
  ⟨lit "ID", some (lit "The `ID` scalar type represents a unique identifier."), none, parseId⟩

/-- All of them. -/
def builtin : List ScalarDef := [int, float, string, boolean, id]

end GraphQL.Scalars
