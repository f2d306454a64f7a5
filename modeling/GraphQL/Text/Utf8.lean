import GraphQL.Text

/-!
UTF-8. Characters are code points held as numbers, because a decoder also has to answer for bytes
that are no character: `Utf8.malformed` stands for a byte that begins no well-formed sequence.
-/

namespace GraphQL.Utf8

/-- Stands for a byte that begins no well-formed sequence; it lies past the last code point. -/
def malformed : Nat := 0x110000

/-- Leading halves of surrogate pairs. -/
def isHighSurrogate (c : Nat) : Bool := 0xD800 ≤ c && c ≤ 0xDBFF

/-- Trailing halves of surrogate pairs. -/
def isLowSurrogate (c : Nat) : Bool := 0xDC00 ≤ c && c ≤ 0xDFFF

/-- Either half of a surrogate pair. -/
def isSurrogate (c : Nat) : Bool := isHighSurrogate c || isLowSurrogate c

/-- A Unicode scalar value: a code point that is no surrogate. -/
def isScalarValue (c : Nat) : Bool := c ≤ 0x10FFFF && !isSurrogate c

/-- A continuation byte carrying the last six bits of `c`. -/
def continuation (c : Nat) : UInt8 := UInt8.ofNat (0x80 + c % 0x40)

/-- The bytes of a code. Four bytes are the longest form; of a code too large for it the low 22 bits
are written. -/
def encode (c : Nat) : Text :=
  if c < 0x80 then [UInt8.ofNat c]
  else if c < 0x800 then [UInt8.ofNat (0xC0 + c / 0x40), continuation c]
  else if c < 0x10000 then
    [UInt8.ofNat (0xE0 + c / 0x1000), continuation (c / 0x40), continuation c]
  else
    [UInt8.ofNat (0xF0 + c / 0x40000 % 0x10), continuation (c / 0x1000), continuation (c / 0x40),
      continuation c]

/-- The bytes of a code for display: a malformed byte shows as the replacement character. -/
def display (c : Nat) : Text :=
  encode (if c = malformed then 0xFFFD else c)

/-- How a leading byte announces its sequence: length, first bits of the code, and the smallest code
that needs this length. -/
structure Lead where
  length : Nat
  bits : Nat
  smallest : Nat

/-- What a byte announces as the first of a sequence. -/
def lead? (b : UInt8) : Option Lead :=
  let n := b.toNat
  if n < 0x80 then some ⟨1, n, 0⟩
  else if 0xC0 ≤ n && n < 0xE0 then some ⟨2, n - 0xC0, 0x80⟩
  else if 0xE0 ≤ n && n < 0xF0 then some ⟨3, n - 0xE0, 0x800⟩
  else if 0xF0 ≤ n && n < 0xF8 then some ⟨4, n - 0xF0, 0x10000⟩
  else none

/-- Appends the payloads of the next `k` continuation bytes to `bits`. -/
def continue? : Nat → Nat → Text → Option Nat
  | 0, bits, _ => some bits
  | _ + 1, _, [] => none
  | k + 1, bits, b :: rest =>
    let n := b.toNat
    if 0x80 ≤ n && n < 0xC0 then continue? k (bits * 0x40 + (n - 0x80)) rest else none

/-- A decoded character and the number of bytes it takes. -/
structure Decoded where
  code : Nat
  width : Nat
deriving DecidableEq, Repr

/-- The well-formed sequence at the start of `b :: rest`: the shortest form of a scalar value. -/
def wellFormed? (b : UInt8) (rest : Text) : Option Decoded := do
  let lead ← lead? b
  let code ← continue? (lead.length - 1) lead.bits rest
  if lead.smallest ≤ code && isScalarValue code then some ⟨code, lead.length⟩ else none

/-- The character at the start of `b :: rest`; a malformed one takes one byte. -/
def decode (b : UInt8) (rest : Text) : Decoded :=
  (wellFormed? b rest).getD ⟨malformed, 1⟩

theorem length_lead_pos {b : UInt8} {lead : Lead} (h : lead? b = some lead) :
    0 < lead.length := by
  simp only [lead?] at h
  grind

theorem width_wellFormed_pos {b : UInt8} {rest : Text} {d : Decoded}
    (h : wellFormed? b rest = some d) : 0 < d.width := by
  simp only [wellFormed?, Option.bind_eq_bind, Option.bind_eq_some_iff] at h
  obtain ⟨lead, hl, code, -, hd⟩ := h
  split at hd
  · cases hd
    exact length_lead_pos hl
  · cases hd

/-- Decoding always gets on. -/
theorem width_decode_pos (b : UInt8) (rest : Text) : 0 < (decode b rest).width := by
  unfold decode
  cases h : wellFormed? b rest with
  | none => exact Nat.one_pos
  | some d => exact width_wellFormed_pos h

end GraphQL.Utf8
