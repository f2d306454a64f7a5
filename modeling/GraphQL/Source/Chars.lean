import GraphQL.Source.Position
import GraphQL.Text.Utf8

/-!
A source as a list of characters, each with its bytes and its position. Reading a source never
fails: a byte that begins no character stands as a character of its own.
-/

namespace GraphQL

/-- A character of a source: its code, the bytes it is written with, and where it stands. -/
structure SourceChar where
  code : Nat
  bytes : Text
  position : Position
deriving DecidableEq, Repr

namespace SourceChar

def isChar (a : SourceChar) (c : Char) : Bool := a.code == c.toNat

end SourceChar

namespace CharClass

/-- Characters that a string may hold: tab, line terminators, and all from space on. -/
def isSource (c : Nat) : Bool :=
  c == 0x9 || c == 0xA || c == 0xD || (0x20 ≤ c && c != Utf8.malformed)

/-- Decimal digits. -/
def isDigit (c : Nat) : Bool := 0x30 ≤ c && c ≤ 0x39

def isLetter (c : Nat) : Bool := (0x41 ≤ c && c ≤ 0x5A) || (0x61 ≤ c && c ≤ 0x7A)

/-- Hexadecimal digits. -/
def isHexDigit (c : Nat) : Bool := isDigit c || (0x61 ≤ c && c ≤ 0x66) || (0x41 ≤ c && c ≤ 0x46)

def isNameStart (c : Nat) : Bool := c == 0x5F || isLetter c

def isNameContinue (c : Nat) : Bool := isNameStart c || isDigit c

def isNumberStart (c : Nat) : Bool := c == 0x2D || isDigit c

/-- Characters that end a line. -/
def isLineTerminator (c : Nat) : Bool := c == 0xA || c == 0xD

/-- Characters that separate tokens and mean nothing: blanks, line terminators, the comma and the
byte order mark. -/
def isIgnored (c : Nat) : Bool :=
  c == 0x9 || c == 0x20 || isLineTerminator c || c == 0x2C || c == 0xFEFF

end CharClass

/-- Where the character after `code` stands. A carriage return before a line feed does not end the
line, so the pair ends it once. -/
def Position.after (p : Position) (code width : Nat) (beforeLineFeed : Bool) : Position :=
  if code == 0xA || (code == 0xD && !beforeLineFeed) then ⟨p.index + width, p.line + 1, 0⟩
  else ⟨p.index + width, p.line, p.column + 1⟩

/-- A source: its characters in order, and the position after the last. -/
structure Source where
  chars : List SourceChar
  stop : Position
deriving Repr

namespace Source

/-- Where the first character stands, or the end of a source that has none left. -/
def position (s : Source) : Position :=
  match s.chars with
  | [] => s.stop
  | c :: _ => c.position

/-- Reads on from position `p`, with the next `inside` bytes still belonging to the previous
character. -/
def read : (inside : Nat) → (p : Position) → Text → Source
  | _, p, [] => ⟨[], p⟩
  | inside + 1, p, _ :: rest => read inside p rest
  | 0, p, b :: rest =>
    let d := Utf8.decode b rest
    let tail := read (d.width - 1) (p.after d.code d.width (rest.head? == some 0xA)) rest
    ⟨⟨d.code, (b :: rest).take d.width, p⟩ :: tail.chars, tail.stop⟩

/-- The characters of a text. -/
def ofText (t : Text) : Source := read 0 .origin t

/-- The bytes of some characters. -/
def bytes (chars : List SourceChar) : Text := chars.flatMap (·.bytes)

theorem bytes_read (inside : Nat) (p : Position) (t : Text) :
    bytes (read inside p t).chars = t.drop inside := by
  fun_induction read inside p t with
  | case1 => simp [bytes]
  | case2 inside p b rest ih => simpa using ih
  | case3 p b rest d tail ih =>
    have hpos : 0 < d.width := Utf8.width_decode_pos b rest
    obtain ⟨w, hw⟩ : ∃ w, d.width = w + 1 := ⟨d.width - 1, by omega⟩
    have ht : bytes tail.chars = rest.drop (d.width - 1) := ih
    rw [hw, Nat.add_sub_cancel] at ht
    change (b :: rest).take d.width ++ bytes tail.chars = b :: rest
    rw [ht, hw, List.take_succ_cons, List.cons_append, List.take_append_drop]

/-- A source loses no byte of its text. -/
theorem bytes_ofText (t : Text) : bytes (ofText t).chars = t := by
  simp [ofText, bytes_read]

end Source

end GraphQL
