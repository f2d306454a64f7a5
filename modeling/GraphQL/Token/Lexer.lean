import GraphQL.Text.BlockString
import GraphQL.Text.Escape
import GraphQL.Token

/-!
Splitting a source into tokens. Every scanner takes the characters from the first one of its token
on and answers with the characters it took and those it left, so that a token is the text it was
read from.
-/

namespace GraphQL.Lexer

/-- What stopped a scanner: the error, the characters from the faulty place on, and the characters
not yet passed over. -/
structure Fault where
  error : LexError
  place : List SourceChar
  rest : List SourceChar
deriving Repr

/-- The characters taken and the characters left. -/
abbrev Scan := Except Fault (List SourceChar × List SourceChar)

def failAt {α : Type} (error : LexError) (place : List SourceChar) : Except Fault α :=
  .error ⟨error, place, place⟩

/-- Drops ignored characters and comments. A comment runs up to a line terminator. -/
def skipIgnored : (inComment : Bool) → List SourceChar → List SourceChar
  | _, [] => []
  | true, c :: cs => skipIgnored (!CharClass.isLineTerminator c.code) cs
  | false, c :: cs =>
    if c.isChar '#' then skipIgnored true cs
    else if CharClass.isIgnored c.code then skipIgnored false cs
    else c :: cs

/-- At most one character of a class. -/
def takeOne (p : Nat → Bool) : List SourceChar → List SourceChar × List SourceChar
  | [] => ([], [])
  | c :: cs => if p c.code then ([c], cs) else ([], c :: cs)

/-- One or more digits. -/
def digits : List SourceChar → Scan
  | [] => failAt .unexpectedEndOfFile []
  | c :: cs =>
    if CharClass.isDigit c.code then .ok ((c :: cs).span fun a => CharClass.isDigit a.code)
    else failAt (.unexpectedCharacter c.code) (c :: cs)

/-- The digits before a fraction: a zero stands alone. -/
def integerPart (cs : List SourceChar) : Scan :=
  match cs with
  | c :: after =>
    if c.isChar '0' then
      match after with
      | d :: _ =>
        if CharClass.isDigit d.code then failAt (.unexpectedCharacter d.code) after
        else .ok ([c], after)
      | [] => .ok ([c], after)
    else digits cs
  | [] => digits cs

/-- A fraction, if a point comes next. -/
def fractionPart (cs : List SourceChar) : Scan :=
  match takeOne (· == '.'.toNat) cs with
  | ([], _) => .ok ([], cs)
  | (point, after) => do
    let (ds, rest) ← digits after
    .ok (point ++ ds, rest)

/-- An exponent, if its mark comes next. -/
def exponentPart (cs : List SourceChar) : Scan :=
  match takeOne (fun c => c == 'e'.toNat || c == 'E'.toNat) cs with
  | ([], _) => .ok ([], cs)
  | (mark, after) => do
    let (sign, after) := takeOne (fun c => c == '+'.toNat || c == '-'.toNat) after
    let (ds, rest) ← digits after
    .ok (mark ++ sign ++ ds, rest)

/-- A number must not run into a name or another point. -/
def endsNumber : List SourceChar → Bool
  | [] => true
  | c :: _ => !(c.isChar '.' || CharClass.isNameStart c.code)

/-- What a scanner of a whole token answers: the token, the characters it took, those left. -/
abbrev TokenScan := Except Fault (Token × List SourceChar × List SourceChar)

/-- A number; it is a float if it has a fraction or an exponent. -/
def number (cs : List SourceChar) : TokenScan := do
  let (sign, rest) := takeOne (· == '-'.toNat) cs
  let (whole, rest) ← integerPart rest
  let (fraction, rest) ← fractionPart rest
  let (exponent, rest) ← exponentPart rest
  if !endsNumber rest then .error ⟨.invalidNumber, cs, rest⟩
  let taken := sign ++ whole ++ fraction ++ exponent
  let text := Source.bytes taken
  let literal := if fraction.isEmpty && exponent.isEmpty then Literal.int text else .float text
  .ok (.scalar literal, taken, rest)

def name (cs : List SourceChar) : TokenScan :=
  let (taken, rest) := cs.span fun c => CharClass.isNameContinue c.code
  .ok (.name (Source.bytes taken), taken, rest)

def ellipsis (cs : List SourceChar) : TokenScan :=
  go 3 cs
where
  /-- Expects `n` more points. -/
  go : Nat → List SourceChar → TokenScan
    | 0, rest => .ok (.mark .ellipsis, cs.take 3, rest)
    | _ + 1, [] => failAt .unexpectedEndOfFile []
    | n + 1, c :: rest =>
      if c.isChar '.' then go n rest
      else .error ⟨.unexpectedCharacter '.'.toNat, cs, c :: rest⟩

/-- The digits of a braced escape, up to eight, with the characters after the closing brace. -/
def bracedDigits (start : List SourceChar) :
    (room : Nat) → (digits : List SourceChar) → List SourceChar → Scan
  | _, _, [] => failAt .unterminatedString []
  | room, digits, c :: cs =>
    if c.isChar '}' then .ok (digits, cs)
    else match room with
      | room + 1 =>
        if CharClass.isHexDigit c.code then bracedDigits start room (digits ++ [c]) cs
        else .error ⟨.unknownEscapeSequence (sequence digits c), start, c :: cs⟩
      | 0 => .error ⟨.unknownEscapeSequence (sequence digits c), start, c :: cs⟩
where
  /-- The sequence as far as it was read, with the character that does not belong. -/
  sequence (digits : List SourceChar) (c : SourceChar) : Text :=
    lit "\\u\x7b" ++ Source.bytes digits ++ Utf8.display c.code

def codes (cs : List SourceChar) : List Nat := cs.map (·.code)

/-- How many characters an escape takes after the `u` that `start` begins with. -/
def unicodeEscape (start after : List SourceChar) : Except Fault Nat :=
  match takeOne (· == '{'.toNat) after with
  | (_ :: _, inner) => do
    let (ds, rest) ← bracedDigits start 8 [] inner
    if ds.isEmpty || !Utf8.isScalarValue (Escape.hexValue (codes ds)) then
      .error ⟨.unknownEscapeSequence (lit "\\u\x7b" ++ Source.bytes ds ++ lit "\x7d"), start, rest⟩
    else .ok (ds.length + 2)
  | ([], _) =>
    let ds := (after.take 4).takeWhile fun c =>
      CharClass.isLetter c.code || CharClass.isDigit c.code
    let rest := after.drop ds.length
    let code := Escape.hexValue (codes ds)
    let refused : Except Fault Nat :=
      .error ⟨.unknownEscapeSequence (lit "\\u" ++ Source.bytes ds), start, rest⟩
    if ds.length != 4 || !(codes ds).all CharClass.isHexDigit || Utf8.isLowSurrogate code then
      refused
    else if Utf8.isHighSurrogate code then
      match Escape.trailing? (codes (rest.take 6)) with
      | some _ => .ok 10
      | none => refused
    else .ok 4

/-- How many characters an escape takes after its backslash. -/
def escape (cs : List SourceChar) : Except Fault Nat :=
  match cs with
  | [] => failAt .unterminatedString []
  | c :: after =>
    if (Escape.simple? c.code).isSome then .ok 1
    else if c.isChar 'u' then (· + 1) <$> unicodeEscape cs after
    else failAt (.unknownEscapeSequence (lit "\\" ++ Utf8.display c.code)) cs

def keep (c : SourceChar) (scan : Scan) : Scan :=
  scan.map fun (taken, rest) => (c :: taken, rest)

/-- The body of a quoted string, up to its closing quote; the next `inside` characters belong to an
escape. -/
def quotedBody : (inside : Nat) → List SourceChar → Scan
  | _, [] => failAt .unterminatedString []
  | inside + 1, c :: cs => keep c (quotedBody inside cs)
  | 0, c :: cs =>
    if c.isChar '"' then .ok ([], c :: cs)
    else if CharClass.isLineTerminator c.code then failAt .unterminatedString (c :: cs)
    else if c.isChar '\\' then
      match escape cs with
      | .ok length => keep c (quotedBody length cs)
      | .error fault => .error fault
    else if !CharClass.isSource c.code then failAt (.unknownCharacterInString c.code) (c :: cs)
    else keep c (quotedBody 0 cs)

/-- `true` when the characters begin with these. -/
def startsWith (pattern : List Char) (cs : List SourceChar) : Bool :=
  codes (cs.take pattern.length) == pattern.map Char.toNat

def tripleQuote : List Char := ['"', '"', '"']

/-- The body of a block string, up to its closing quotes; the next `inside` characters belong to an
escaped triple quote. -/
def blockBody : (inside : Nat) → List SourceChar → Scan
  | _, [] => failAt .unterminatedBlockString []
  | inside + 1, c :: cs => keep c (blockBody inside cs)
  | 0, c :: cs =>
    if startsWith tripleQuote (c :: cs) then .ok ([], c :: cs)
    else if startsWith ('\\' :: tripleQuote) (c :: cs) then keep c (blockBody 3 cs)
    else if !CharClass.isSource c.code then failAt (.unknownCharacterInString c.code) (c :: cs)
    else keep c (blockBody 0 cs)

/-- A string between delimiters of `width` quotes, whose body is scanned by `body`. -/
def delimited (style : StringStyle) (width : Nat) (body : List SourceChar → Scan)
    (cs : List SourceChar) : TokenScan := do
  let (inner, rest) ← body (cs.drop width)
  let taken := cs.take width ++ inner ++ rest.take width
  .ok (.scalar (.string style (Source.bytes inner)), taken, rest.drop width)

def string (cs : List SourceChar) : TokenScan :=
  if startsWith tripleQuote cs then delimited .block 3 (blockBody 0) cs
  else delimited .quoted 1 (quotedBody 0) cs

def punctuator? (c : SourceChar) : Option Punctuator :=
  if c.isChar '!' then some .exclamationMark
  else if c.isChar '$' then some .dollar
  else if c.isChar '(' then some .parenOpen
  else if c.isChar ')' then some .parenClose
  else if c.isChar '[' then some .bracketOpen
  else if c.isChar ']' then some .bracketClose
  else if c.isChar '{' then some .curlyOpen
  else if c.isChar '}' then some .curlyClose
  else if c.isChar ':' then some .colon
  else if c.isChar '=' then some .equals
  else if c.isChar '@' then some .at
  else if c.isChar '|' then some .pipe
  else none

/-- The token that begins with `c`. -/
def scan (c : SourceChar) (cs : List SourceChar) : TokenScan :=
  match punctuator? c with
  | some p => .ok (.mark p, [c], cs)
  | none =>
    if c.isChar '.' then ellipsis (c :: cs)
    else if c.isChar '"' then string (c :: cs)
    else if CharClass.isNameStart c.code then name (c :: cs)
    else if CharClass.isNumberStart c.code then number (c :: cs)
    else failAt (.unknownCharacter c.code) (c :: cs)

/-- Why no further token can be read, and the source from where reading stopped. -/
structure Failure where
  error : Located LexError
  rest : Source
deriving Repr

def Fault.locate (fault : Fault) (stop : Position) : Failure :=
  ⟨⟨fault.error, .empty (Source.position ⟨fault.place, stop⟩)⟩, ⟨fault.rest, stop⟩⟩

def skip (s : Source) : Source := ⟨skipIgnored false s.chars, s.stop⟩

/-- The next token and the source after it, or `none` at the end. -/
def next? (s : Source) : Except Failure (Option (Located Token × Source)) :=
  let start := skip s
  match start.chars with
  | [] => .ok none
  | c :: cs =>
    match scan c cs with
    | .error fault => .error (fault.locate s.stop)
    | .ok (token, _, rest) =>
      let after : Source := ⟨rest, s.stop⟩
      .ok (some (⟨token, ⟨start.position, after.position⟩⟩, after))

/-- A source that is read token by token, and whether its end has been told. -/
structure Reader where
  rest : Source
  atEnd : Bool

def Reader.ofText (t : Text) : Reader := ⟨Source.ofText t, false⟩

/-- The next token. The end of the file is told once, as a token of no width; then there is none. -/
def Reader.next (r : Reader) : Except Failure (Option (Located Token) × Reader) :=
  if r.atEnd then .ok (none, r)
  else match next? r.rest with
    | .error failure => .error failure
    | .ok (some (token, rest)) => .ok (some token, ⟨rest, false⟩)
    | .ok none =>
      let stop := skip r.rest
      .ok (some ⟨.endOfFile, .empty stop.position⟩, ⟨stop, true⟩)

/-- The tokens of a source in order, and how reading ended: at the end or at a failure. -/
structure Outcome where
  tokens : List (Located Token)
  ending : Except Failure Position

/-- Reads up to `fuel` tokens. A token takes at least one character, so the number of characters
left is fuel enough. -/
def readUpTo : (fuel : Nat) → Source → Outcome
  | 0, s => ⟨[], .ok (skip s).position⟩
  | fuel + 1, s =>
    match next? s with
    | .error failure => ⟨[], .error failure⟩
    | .ok none => ⟨[], .ok (skip s).position⟩
    | .ok (some (token, rest)) =>
      let later := readUpTo fuel rest
      ⟨token :: later.tokens, later.ending⟩

def run (s : Source) : Outcome := readUpTo s.chars.length s

end GraphQL.Lexer

namespace GraphQL.Literal

/-- The value of a string literal, escapes read; of a number, its digits. -/
def cooked : Literal → Except LexError Text
  | .int digits => .ok digits
  | .float digits => .ok digits
  | .string .quoted body => Escape.decode body
  | .string .block body => .ok (BlockString.value (BlockString.unescape body))

end GraphQL.Literal
