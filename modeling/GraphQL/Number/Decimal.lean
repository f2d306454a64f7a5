import GraphQL.Number.Binary64
import GraphQL.Text

/-!
Decimal text of numbers: reading a number written in digits, and writing a double with a given count
of significant digits.
-/

namespace GraphQL.Decimal

/-- Decimal digits. -/
def isDigit (b : UInt8) : Bool := 0x30 ≤ b && b ≤ 0x39

/-- The number that decimal digits write. -/
def value (digits : Text) : Nat :=
  digits.foldl (fun n b => n * 10 + (b.toNat - 0x30)) 0

/-- A `-`, if one comes first, and the text after it. -/
def sign : Text → Bool × Text
  | 0x2D :: rest => (true, rest)
  | text => (false, text)

/-- The integer that a text writes: an optional minus and digits, nothing else. -/
def readInt? (text : Text) : Option Int :=
  let (negative, digits) := sign text
  if digits.isEmpty || !digits.all isDigit then none
  else some (if negative then -(value digits : Int) else value digits)

/-- A decimal number: its digits as one integer, and the power of ten to multiply it by. -/
structure Number where
  negative : Bool
  digits : Nat
  exponent : Int
deriving Repr

/-- The digits after a point, if a point comes next. -/
def fraction : Text → Text × Text
  | 0x2E :: rest => rest.span isDigit
  | text => ([], text)

/-- An exponent, if its mark comes next: `e` or `E`, an optional sign, digits. Nothing may follow
it. -/
def exponent? : Text → Option Int
  | [] => some 0
  | mark :: rest =>
    if mark == Text.byte 'e' || mark == Text.byte 'E' then
      match rest with
      | 0x2B :: digits => if digits.head? == some 0x2D then none else readInt? digits
      | _ => readInt? rest
    else none

/-- The number that a text writes: an optional minus, digits with at most one point among them, and
an optional exponent. -/
def read? (text : Text) : Option Number := do
  let (negative, rest) := sign text
  let (whole, rest) := rest.span isDigit
  let (part, rest) := fraction rest
  if whole.isEmpty && part.isEmpty then none
  let exponent ← exponent? rest
  some ⟨negative, value (whole ++ part), exponent - part.length⟩

/-- How many decimal digits a number has; zero has none. -/
def digitCount (n : Nat) : Nat :=
  if n = 0 then 0 else (Nat.toDigits 10 n).length

def power (e : Nat) : Nat := Nat.pow 10 e

/-- `a / b * 10 ^ e` as a ratio of integers. -/
def scale (a b : Nat) (e : Int) : Nat × Nat :=
  if 0 ≤ e then (a * power e.toNat, b) else (a, b * power (-e).toNat)

/-- The magnitude of the double nearest to a decimal number: infinity if it is too large, zero if it
is too small. -/
def magnitude (n : Number) : Nat :=
  let size : Int := digitCount n.digits + n.exponent
  if n.digits = 0 || size ≤ -324 then 0
  else if 310 ≤ size then Binary64.infinityBits
  else
    let (num, den) := scale n.digits 1 n.exponent
    min (Binary64.roundRatio num den) Binary64.infinityBits

/-- The double nearest to a decimal number. -/
def toBinary64 (n : Number) : Binary64 := .ofMagnitude n.negative (magnitude n)

/-- The double nearest to a decimal number, or `none` if it is out of range: so large that it rounds
to infinity, or so small that it rounds to zero without being zero. -/
def toBinary64? (n : Number) : Option Binary64 :=
  if magnitude n = Binary64.infinityBits || (magnitude n = 0 && n.digits != 0) then none
  else some (toBinary64 n)

def lower (b : UInt8) : UInt8 := if 0x41 ≤ b && b ≤ 0x5A then b + 0x20 else b

/-- What may stand in parentheses after `nan`. -/
def isTag (b : UInt8) : Bool :=
  isDigit b || (0x61 ≤ lower b && lower b ≤ 0x7A) || b == Text.byte '_'

/-- The magnitudes with names, in any case: `inf`, `infinity`, `nan`, and `nan` with a tag in
parentheses. -/
def namedMagnitude? (text : Text) : Option Nat :=
  let small := text.map lower
  if small == lit "inf" || small == lit "infinity" then some Binary64.infinityBits
  else if small == lit "nan" then some Binary64.nan.magnitude
  else if small.take 4 == lit "nan(" && small.getLast? == some (Text.byte ')')
      && ((small.drop 4).dropLast).all isTag then
    some Binary64.nan.magnitude
  else none

/-- The double that a text writes. -/
def readBinary64? (text : Text) : Option Binary64 :=
  let (negative, rest) := sign text
  match namedMagnitude? rest with
  | some magnitude => some (.ofMagnitude negative magnitude)
  | none => (read? text).bind toBinary64?

/-- The power of ten of the first digit of a positive ratio. -/
def decimalExponent (num den : Nat) : Int :=
  let e : Int := (digitCount num : Int) - digitCount den
  let (a, b) := scale num den (-e)
  if a < b then e - 1 else e

/-- A positive ratio rounded to `precision` significant digits: those digits as one integer, and the
power of ten of the first. -/
def significant (precision num den : Nat) : Nat × Int :=
  let e := decimalExponent num den
  let (a, b) := scale num den ((precision : Int) - 1 - e)
  let n := Binary64.roundEven a b
  if n = power precision then (power (precision - 1), e + 1) else (n, e)

/-- Drops the zeros at the end. -/
def stripZeros (digits : Text) : Text :=
  (digits.reverse.dropWhile (· == 0x30)).reverse

/-- `whole.part`, without the point if there is nothing after it. -/
def pointed (whole part : Text) : Text :=
  if part.isEmpty then whole else whole ++ lit "." ++ part

/-- An exponent with its sign and at least two digits. -/
def exponentText (e : Int) : Text :=
  let digits := Text.ofNat e.natAbs
  let sign := if e < 0 then lit "e-" else lit "e+"
  if digits.length < 2 then sign ++ lit "0" ++ digits else sign ++ digits

/-- A positive ratio with `precision` significant digits, zeros at the end dropped. Exponents from
-4 up to the precision are written out in place. -/
def generalRatio (precision num den : Nat) : Text :=
  let (n, e) := significant precision num den
  let digits := Text.ofNat n
  if e < -4 || (precision : Int) ≤ e then
    pointed (digits.take 1) (stripZeros (digits.drop 1)) ++ exponentText e
  else if e < 0 then
    pointed (lit "0") (List.replicate ((-e).toNat - 1) 0x30 ++ stripZeros digits)
  else
    let whole := e.toNat + 1
    pointed (digits.take whole) (stripZeros (digits.drop whole))

/-- A double with `precision` significant digits, zeros at the end dropped. -/
def general (precision : Nat) (x : Binary64) : Text :=
  let minus := if x.isNegative then lit "-" else []
  if x.isNaN then minus ++ lit "nan"
  else if x.isInfinite then minus ++ lit "inf"
  else if x.magnitude = 0 then minus ++ lit "0"
  else minus ++ generalRatio precision x.toRatio.1 x.toRatio.2

end GraphQL.Decimal
