/-!
Double-precision numbers by their bits, with the conversions a query engine needs: exact reading of
a value as a ratio of integers, and rounding of a ratio to the nearest double, ties to even.
-/

namespace GraphQL

/-- A double-precision number: sign, eleven bits of exponent, 52 bits of fraction. -/
structure Binary64 where
  bits : UInt64
deriving DecidableEq, Repr

namespace Binary64

def signBit : Nat := 0x8000000000000000

/-- The bit above the fraction: the least one of the exponent, and the leading digit of a normal
number. -/
def unitBit : Nat := 0x10000000000000

/-- The bits of positive infinity, also the mask of the exponent. -/
def infinityBits : Nat := 0x7FF * unitBit

/-- `true` for negative numbers and negative zero. -/
def isNegative (x : Binary64) : Bool := signBit ≤ x.bits.toNat

/-- The bits without the sign. -/
def magnitude (x : Binary64) : Nat := x.bits.toNat % signBit

/-- `true` when the number is not a number. -/
def isNaN (x : Binary64) : Bool := infinityBits < x.magnitude

def isInfinite (x : Binary64) : Bool := x.magnitude == infinityBits

/-- `true` when the number is neither infinite nor a NaN. -/
def isFinite (x : Binary64) : Bool := x.magnitude < infinityBits

/-- Numeric equality: a NaN equals nothing, and the two zeros are equal. -/
instance : BEq Binary64 where
  beq x y := !x.isNaN && !y.isNaN && (x.bits == y.bits || (x.magnitude == 0 && y.magnitude == 0))

def ofMagnitude (negative : Bool) (magnitude : Nat) : Binary64 :=
  ⟨UInt64.ofNat (if negative then signBit + magnitude else magnitude)⟩

/-- A quiet NaN. -/
def nan : Binary64 := ofMagnitude false (infinityBits + unitBit / 2)

/-- The integer nearest to `num / den`, an even one at a midpoint. -/
def roundEven (num den : Nat) : Nat :=
  let k := num / den
  let twice := 2 * (num % den)
  if twice < den then k else if den < twice then k + 1 else k + k % 2

/-- `a / b * 2 ^ e` as a ratio of integers. -/
def scale (a b : Nat) (e : Int) : Nat × Nat :=
  if 0 ≤ e then (a <<< e.toNat, b) else (a, b <<< (-e).toNat)

/-- The exponent `e` with `2 ^ e ≤ num / den < 2 ^ (e + 1)`, for positive `num` and `den`. -/
def binaryExponent (num den : Nat) : Int :=
  let e : Int := (num.log2 : Int) - den.log2
  let (a, b) := scale num den (-e)
  if a < b then e - 1 else e

/-- The magnitude of the double nearest to `num / den`; it is `infinityBits` or more when the ratio
is too large. -/
def roundRatio (num den : Nat) : Nat :=
  if num = 0 then 0
  else
    let unit := max (binaryExponent num den - 52) (-1074)
    let (a, b) := scale num den (-unit)
    (unit + 1074).toNat * unitBit + roundEven a b

/-- The double nearest to an integer; what is too large becomes infinite. -/
def ofInt (n : Int) : Binary64 :=
  ofMagnitude (n < 0) (min (roundRatio n.natAbs 1) infinityBits)

/-- A finite number's absolute value as a ratio of integers. -/
def toRatio (x : Binary64) : Nat × Nat :=
  let fraction := x.magnitude % unitBit
  let exponent := x.magnitude / unitBit
  if exponent = 0 then scale fraction 1 (-1074)
  else scale (unitBit + fraction) 1 (Int.ofNat exponent - 1075)

end Binary64

end GraphQL
