import GraphQL.Source.Chars
import GraphQL.Token.Error

/-!
Escape sequences of quoted strings: `decode` gives the text that the body of a quoted string
denotes. It reads bytes and is more lenient than the lexer, which has already refused lone
surrogates and codes that are no character; what is left to refuse is reported with the sequence at
fault.
-/

namespace GraphQL.Escape

/-- The value of a hexadecimal digit. -/
def hexDigit (c : Nat) : Nat :=
  if CharClass.isDigit c then c - 0x30 else if 0x61 ≤ c then c - 0x57 else c - 0x37

/-- The number that hexadecimal digits write. -/
def hexValue (digits : List Nat) : Nat :=
  digits.foldl (fun n c => n * 16 + hexDigit c) 0

/-- The character codes that stand for one character after a backslash, with that character. -/
def simple? : Nat → Option Nat
  | 0x22 => some 0x22
  | 0x5C => some 0x5C
  | 0x2F => some 0x2F
  | 0x62 => some 0x08
  | 0x66 => some 0x0C
  | 0x6E => some 0x0A
  | 0x72 => some 0x0D
  | 0x74 => some 0x09
  | _ => none

/-- The code point of a surrogate pair. -/
def joinSurrogates (high low : Nat) : Nat :=
  0x10000 + (high - 0xD800) * 0x400 + (low - 0xDC00)

/-- The trailing surrogate written as six codes: a backslash, `u` and four hexadecimal digits. -/
def trailing? : List Nat → Option Nat
  | [0x5C, 0x75, a, b, c, d] =>
    let low := hexValue [a, b, c, d]
    if [a, b, c, d].all CharClass.isHexDigit && Utf8.isLowSurrogate low then some low else none
  | _ => none

/-- The codes of some bytes. -/
def codes (t : Text) : List Nat := t.map UInt8.toNat

/-- What the bytes after a backslash denote, and how many of them belong to the sequence. On
failure, the sequence to report. -/
def sequence (rest : Text) : Except Text (Text × Nat) :=
  match rest with
  | [] => .error (lit "\\")
  | b :: after =>
    match simple? b.toNat with
    | some c => .ok (Utf8.encode c, 1)
    | none =>
      if b != Text.byte 'u' then .error (lit "\\" ++ [b])
      else if after.head? == some 0x7B then
        let inner := after.drop 1
        let digits := inner.takeWhile (· != 0x7D)
        if digits.length == inner.length then .error (lit "\\u\x7b")
        else if digits.isEmpty || 8 < digits.length || !(codes digits).all CharClass.isHexDigit then
          .error (lit "\\u\x7b" ++ digits ++ lit "\x7d")
        else .ok (Utf8.encode (hexValue (codes digits)), digits.length + 3)
      else
        let digits := after.take 4
        let code := hexValue (codes digits)
        if digits.length != 4 || !(codes digits).all CharClass.isHexDigit then
          .error (lit "\\u" ++ digits)
        else if Utf8.isHighSurrogate code then
          match trailing? (codes ((after.drop 4).take 6)) with
          | some low => .ok (Utf8.encode (joinSurrogates code low), 11)
          | none => .error (lit "\\u" ++ digits)
        else .ok (Utf8.encode code, 5)

/-- Decodes on, with the next `inside` bytes still belonging to a sequence. -/
def decodeFrom : (inside : Nat) → Text → Except LexError Text
  | _, [] => .ok []
  | inside + 1, _ :: rest => decodeFrom inside rest
  | 0, b :: rest =>
    if b == Text.byte '\\' then
      match sequence rest with
      | .ok (text, length) => (text ++ ·) <$> decodeFrom length rest
      | .error seq => .error (.unknownEscapeSequence seq)
    else (b :: ·) <$> decodeFrom 0 rest

/-- The text that the body of a quoted string denotes. -/
def decode (body : Text) : Except LexError Text := decodeFrom 0 body

end GraphQL.Escape
