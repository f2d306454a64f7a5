import GraphQL.Json
import GraphQL.Number.Decimal
import GraphQL.Text.Escape

/-!
Reading JSON text. Of a repeated key the first place and the last value count. A number without a
point or an exponent is an integer, or a float if 64 bits do not hold it.
-/

namespace GraphQL.Json

/-- Replaces the value of a key in its place, or adds it at the end. -/
def putField (key : Text) (j : Json) : List (Text × Json) → List (Text × Json)
  | [] => [(key, j)]
  | (k, old) :: rest => if k == key then (k, j) :: rest else (k, old) :: putField key j rest

namespace Reader

/-- What is read and the text after it. -/
abbrev Step (α : Type) := Option (α × Text)

/-- Blanks between tokens. -/
def isSpace (b : UInt8) : Bool := b == 0x20 || b == 0x09 || b == 0x0A || b == 0x0D

def skipSpace (t : Text) : Text := t.dropWhile isSpace

/-- Takes a byte, blanks before it dropped. -/
def expect (c : Char) (t : Text) : Option Text :=
  match skipSpace t with
  | [] => none
  | b :: rest => if b == Text.byte c then some rest else none

/-- The number that four hexadecimal digits write. -/
def hexFour (t : Text) : Step Nat :=
  let digits := (t.take 4).map UInt8.toNat
  if digits.length == 4 && digits.all CharClass.isHexDigit then
    some (Escape.hexValue digits, t.drop 4)
  else none

/-- The trailing half of a surrogate pair. -/
def trailing : Text → Step Nat
  | 0x5C :: 0x75 :: rest =>
    match hexFour rest with
    | some (low, rest) => if Utf8.isLowSurrogate low then some (low, rest) else none
    | none => none
  | _ => none

/-- The character of an escape, after its backslash. -/
def escape : Text → Step Nat
  | [] => none
  | b :: rest =>
    if b == Text.byte 'u' then
      match hexFour rest with
      | none => none
      | some (high, rest) =>
        if Utf8.isHighSurrogate high then
          match trailing rest with
          | some (low, after) => some (Escape.joinSurrogates high low, after)
          | none => some (high, rest)
        else some (high, rest)
    else (Escape.simple? b.toNat).map fun c => (c, rest)

/-- A string after its opening quote; `done` holds what was read, last byte first. -/
def string : (fuel : Nat) → (done : Text) → Text → Step Text
  | 0, _, _ => none
  | _ + 1, _, [] => none
  | fuel + 1, done, b :: rest =>
    if b == Text.byte '"' then some (done.reverse, rest)
    else if b == Text.byte '\\' then
      match escape rest with
      | some (c, rest) => string fuel ((Utf8.encode c).reverse ++ done) rest
      | none => none
    else string fuel (b :: done) rest

def isNumeric (b : UInt8) : Bool :=
  Decimal.isDigit b || [0x2B, 0x2D, 0x2E, 0x45, 0x65].contains b

/-- `true` when 64 bits hold an integer, signed if it is negative. -/
def fitsWord (n : Int) : Bool := -0x8000000000000000 ≤ n && n < 0x10000000000000000

def number (t : Text) : Step Json :=
  let (digits, rest) := t.span isNumeric
  match Decimal.readInt? digits with
  | some n => some (if fitsWord n then .int n else .float (.ofInt n), rest)
  | none => (Decimal.read? digits).map fun n => (.float (Decimal.toBinary64 n), rest)

/-- The key of a field and the colon after it. -/
def fieldKey (t : Text) : Option (Text × Text) := do
  let rest ← expect '"' t
  let (key, rest) ← string (rest.length + 1) [] rest
  let rest ← expect ':' rest
  return (key, rest)

/-- A keyword and what it stands for. -/
def keyword (word : String) (j : Json) (t : Text) : Step Json :=
  let w := lit word
  if t.take w.length == w then some (j, t.drop w.length) else none

mutual

def value : (fuel : Nat) → Text → Step Json
  | 0, _ => none
  | fuel + 1, t =>
    match skipSpace t with
    | [] => none
    | b :: rest =>
      if b == Text.byte '"' then
        (string (rest.length + 1) [] rest).map fun (s, rest) => (.string s, rest)
      else if b == Text.byte '[' then
        match expect ']' rest with
        | some rest => some (.array [], rest)
        | none => items fuel [] rest
      else if b == Text.byte '{' then
        match expect '}' rest with
        | some rest => some (.object [], rest)
        | none => fields fuel [] rest
      else if b == Text.byte 'n' then keyword "null" .null (b :: rest)
      else if b == Text.byte 't' then keyword "true" (.bool true) (b :: rest)
      else if b == Text.byte 'f' then keyword "false" (.bool false) (b :: rest)
      else number (b :: rest)

/-- The items of an array; `done` holds those read, the last one first. -/
def items : (fuel : Nat) → (done : List Json) → Text → Step Json
  | 0, _, _ => none
  | fuel + 1, done, t =>
    match value fuel t with
    | none => none
    | some (j, rest) =>
      match expect ',' rest with
      | some rest => items fuel (j :: done) rest
      | none => (expect ']' rest).map fun rest => (.array (j :: done).reverse, rest)

/-- The fields of an object; `done` holds those read. -/
def fields : (fuel : Nat) → (done : List (Text × Json)) → Text → Step Json
  | 0, _, _ => none
  | fuel + 1, done, t =>
    match fieldKey t with
    | none => none
    | some (key, rest) =>
      match value fuel rest with
      | none => none
      | some (j, rest) =>
        match expect ',' rest with
        | some rest => fields fuel (putField key j done) rest
        | none => (expect '}' rest).map fun rest => (.object (putField key j done), rest)

end

end Reader

/-- The JSON value that a text writes. -/
def ofText? (t : Text) : Option Json :=
  match Reader.value (t.length + 1) t with
  | some (j, rest) => if (Reader.skipSpace rest).isEmpty then some j else none
  | none => none

end GraphQL.Json
