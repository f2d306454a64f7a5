/-!
Text as the bytes it is written with. Nothing requires the bytes to be well-formed UTF-8: a source,
a name or a message may hold any bytes, and order is the order of unsigned bytes.
-/

namespace GraphQL

/-- A sequence of bytes, usually UTF-8. -/
abbrev Text := List UInt8

/-- The bytes of a string. -/
def lit (s : String) : Text := s.toByteArray.data.toList

namespace Text

/-- The byte of an ASCII character. -/
def byte (c : Char) : UInt8 := UInt8.ofNat c.toNat

/-- Decimal digits of `n`, most significant first. -/
def ofNat (n : Nat) : Text :=
  (Nat.toDigits 10 n).map byte

/-- Decimal text of an integer, with `-` before a negative one. -/
def ofInt : Int → Text
  | .ofNat n => ofNat n
  | .negSucc n => byte '-' :: ofNat (n + 1)

/-- The parts one after another with `separator` between neighbours. -/
def join (separator : Text) : List Text → Text
  | [] => []
  | [part] => part
  | part :: parts => part ++ separator ++ join separator parts

/-- The parts one after another with `separator` before each part that has something before it. -/
def chain (separator : Text) : List Text → Text
  | [] => []
  | part :: parts =>
    if part.isEmpty then chain separator parts else part ++ parts.flatMap (separator ++ ·)

/-- What stands before the first NUL. -/
def untilNul (t : Text) : Text := t.takeWhile (· != 0)

/-- `true` when the first text comes before the second in byte order. -/
def lt (a b : Text) : Bool := compare a b == .lt

end Text

end GraphQL
