import GraphQL.Text

/-!
Positions in a source, spans between them, and values that remember where they were read.
-/

namespace GraphQL

/-- A place in a source: byte offset, line, and column counted in characters, all from zero. A
coordinate takes 64 bits; no source is long enough to need more. -/
structure Position where
  index : Nat
  line : Nat
  column : Nat
deriving DecidableEq, Repr, Inhabited

namespace Position

def origin : Position := ⟨0, 0, 0⟩

/-- A coordinate in 64 bits. Counting starts again from zero after the last one. -/
def wrap (n : Nat) : Nat := n % 0x10000000000000000

/-- Past a character of `width` bytes on the same line. -/
def advanceColumn (p : Position) (width : Nat) : Position :=
  ⟨wrap (p.index + width), p.line, wrap (p.column + 1)⟩

/-- Past a line terminator of `width` bytes. -/
def advanceLine (p : Position) (width : Nat) : Position :=
  ⟨wrap (p.index + width), wrap (p.line + 1), 0⟩

/-- Positions are ordered by offset, then line, then column. -/
instance : Ord Position where
  compare p q := (compare p.index q.index).then
    ((compare p.line q.line).then (compare p.column q.column))

/-- The text `line:column`, counted from zero. -/
def toText (p : Position) : Text :=
  Text.ofNat p.line ++ lit ":" ++ Text.ofNat p.column

end Position

/-- The part of a source from `start` up to, not including, `stop`. -/
structure Span where
  start : Position
  stop : Position
deriving DecidableEq, Repr, Inhabited

namespace Span

/-- The empty span at a position. -/
def empty (p : Position) : Span := ⟨p, p⟩

/-- The span of a character of one byte. -/
def single (p : Position) : Span := ⟨p, p.advanceColumn 1⟩

/-- The span of what was not read from a source. -/
def unlocated : Span := empty .origin

instance : Ord Span where
  compare s t := (compare s.start t.start).then (compare s.stop t.stop)

/-- From the start of the first span to the end of the last. -/
def hull? (spans : List Span) : Option Span := do
  let first ← spans.head?
  let last ← spans.getLast?
  some ⟨first.start, last.stop⟩

end Span

/-- A value with the span it was read from. -/
structure Located (α : Type) where
  value : α
  span : Span
deriving DecidableEq, Repr, Inhabited

namespace Located

variable {α β : Type}

/-- A value that was not read from a source. -/
def unlocated (a : α) : Located α := ⟨a, .unlocated⟩

/-- Changes the value and keeps the span. -/
def map (f : α → β) (a : Located α) : Located β := ⟨f a.value, a.span⟩

end Located

/-- The text of a message about a place: the message, then where it applies. -/
def shownAt (message : Text) (p : Position) : Text :=
  message ++ lit ". At " ++ p.toText

end GraphQL
