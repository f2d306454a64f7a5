import GraphQL.Number.Decimal

/-!
Leaf values: numbers, text and truth values.
-/

namespace GraphQL

/-- A leaf value. Integers have 32 bits. -/
inductive Scalar where
  | int (n : Int32)
  | float (x : Binary64)
  | string (text : Text)
  | boolean (b : Bool)
deriving DecidableEq, Repr

namespace Scalar

/-- Equality of kind and value, floats compared as numbers. -/
protected def beq : Scalar → Scalar → Bool
  | int m, int n => m == n
  | float x, float y => x == y
  | string s, string t => s == t
  | boolean a, boolean b => a == b
  | _, _ => false

instance : BEq Scalar := ⟨Scalar.beq⟩

/-- The scalar of an integer that fits 32 bits. -/
def ofInt? (n : Int) : Option Scalar :=
  if -0x80000000 ≤ n && n < 0x80000000 then some (int (Int32.ofInt n)) else none

def toInt? : Scalar → Option Int32
  | int n => some n
  | _ => none

/-- The number of a float, or of an integer widened to one. -/
def toFloat? : Scalar → Option Binary64
  | float x => some x
  | int n => some (.ofInt n.toInt)
  | _ => none

def toString? : Scalar → Option Text
  | string t => some t
  | _ => none

/-- The truth value of a Boolean. -/
def toBool? : Scalar → Option Bool
  | boolean b => some b
  | _ => none

/-- How a byte stands between quotes: quotes, backslashes, line terminators and tabs are escaped. -/
def quoteByte (b : UInt8) : Text :=
  if b == 0x22 then lit "\\\""
  else if b == 0x5C then lit "\\\\"
  else if b == 0x0A then lit "\\n"
  else if b == 0x0D then lit "\\r"
  else if b == 0x09 then lit "\\t"
  else [b]

/-- Text between quotes. -/
def quote (t : Text) : Text := lit "\"" ++ t.flatMap quoteByte ++ lit "\""

/-- `true` when a number's text shows that it is no integer. -/
def marksFloat (t : Text) : Bool :=
  t.any fun b => b == Text.byte '.' || b == Text.byte 'e' || b == Text.byte 'E'

/-- A float with seventeen significant digits. A finite one keeps a fraction or an exponent. -/
def floatText (x : Binary64) : Text :=
  let t := Decimal.general 17 x
  if x.isFinite && !marksFloat t then t ++ lit ".0" else t

/-- The text of a truth value. -/
def boolText (b : Bool) : Text := if b then lit "true" else lit "false"

def toText : Scalar → Text
  | int n => Text.ofInt n.toInt
  | float x => floatText x
  | string t => quote t
  | boolean b => boolText b

end Scalar

end GraphQL
