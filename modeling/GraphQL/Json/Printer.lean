import GraphQL.Json
import GraphQL.Value.Scalar

/-!
Writing JSON text without blanks.
-/

namespace GraphQL.Json

namespace Printer

/-- A hexadecimal digit in lower case. -/
def hexDigit (n : Nat) : UInt8 := UInt8.ofNat (if n < 10 then 0x30 + n else 0x57 + n)

/-- The low `width` hexadecimal digits of a number. -/
def hex (width n : Nat) : Text :=
  (List.range width).map fun i => hexDigit ((n >>> (4 * (width - 1 - i))) % 16)

/-- How a byte stands in a string: quotes, backslashes and control characters are escaped. -/
def stringByte (b : UInt8) : Text :=
  if b == 0x22 || b == 0x5C then [0x5C, b]
  else if b < 0x20 then lit "\\u" ++ hex 4 b.toNat
  else [b]

/-- Text between quotes, in front of what follows. -/
def string (t after : Text) : Text :=
  Text.byte '"' :: (t.flatMap stringByte ++ Text.byte '"' :: after)

mutual

/-- A value as JSON text, in front of what follows. What is no number is written as null. -/
def value : Json → (after : Text) → Text
  | .null, after => lit "null" ++ after
  | .bool b, after => Scalar.boolText b ++ after
  | .int n, after => Text.ofInt n ++ after
  | .float x, after => (if x.isFinite then Scalar.floatText x else lit "null") ++ after
  | .string t, after => string t after
  | .array [], after => lit "[]" ++ after
  | .array (j :: rest), after => Text.byte '[' :: value j (items rest (Text.byte ']' :: after))
  | .object [], after => lit "\x7b\x7d" ++ after
  | .object ((k, j) :: rest), after =>
    Text.byte '{' :: string k (Text.byte ':' :: value j (fields rest (Text.byte '}' :: after)))

/-- Further items of an array, each after a comma. -/
def items : List Json → (after : Text) → Text
  | [], after => after
  | j :: rest, after => Text.byte ',' :: value j (items rest after)

/-- Further fields of an object, each after a comma. -/
def fields : List (Text × Json) → (after : Text) → Text
  | [], after => after
  | (k, j) :: rest, after =>
    Text.byte ',' :: string k (Text.byte ':' :: value j (fields rest after))

end

end Printer

/-- A value as JSON text. -/
def toText (j : Json) : Text := Printer.value j []

end GraphQL.Json
