import Mathlib.Data.List.TakeDrop
import GraphQL.Proofs.Source.Chars
import GraphQL.Proofs.Text.Characters

/-! Positions counted from the text alone: the line is the number of line terminators before a
position, and the column is the number of characters between the last of them and the position. The
characters of a source stand at such positions, and so does its end. -/

namespace GraphQL

open Source (plain bytes)

namespace Utf8

/-- So many characters long is a text. A character of well-formed UTF-8 counts for one, and so does
a byte that begins none. -/
inductive HasLength : Text → Nat → Prop
  | nil : HasLength [] 0
  | char {c : Char} {rest : Text} {n : Nat} :
      HasLength rest n → HasLength (String.utf8EncodeChar c ++ rest) (n + 1)
  | stray {b : UInt8} {rest : Text} {n : Nat} :
      (∀ c, ¬ String.utf8EncodeChar c <+: b :: rest) → HasLength rest n →
      HasLength (b :: rest) (n + 1)

variable {b : UInt8} {t rest : Text} {n : Nat}

/-- A byte that begins no character is decoded to none. -/
theorem wellFormed?_eq_none_iff :
    wellFormed? b rest = none ↔ ∀ c, ¬ String.utf8EncodeChar c <+: b :: rest := by
  constructor
  · rintro hnone c ⟨more, hmore⟩
    obtain ⟨first, after, hencode, hread⟩ := wellFormed?_encode (isScalarValue_toNat c) more
    rw [utf8EncodeChar_eq, hencode, List.cons_append, List.cons.injEq] at hmore
    obtain ⟨rfl, rfl⟩ := hmore
    rw [hnone] at hread
    cases hread
  · intro h
    rw [Option.eq_none_iff_forall_ne_some]
    intro d hd
    obtain ⟨hbytes, hscalar⟩ := take_wellFormed? hd
    apply h (Char.ofNat d.code)
    rw [utf8EncodeChar_eq, toNat_ofNat hscalar, ← hbytes]
    exact List.take_prefix _ _

/-- The characters of a source are those that the text is long. -/
theorem hasLength_iff : HasLength t n ↔ (plain t).length = n := by
  constructor
  · intro h
    induction h with
    | nil => rfl
    | @char c rest n _ ih =>
      rw [utf8EncodeChar_eq, Source.plain_encode (isScalarValue_toNat c), List.length_cons, ih]
    | @stray b rest n hstray _ ih =>
      have hdecode : decode b rest = ⟨malformed, 1⟩ := by
        rw [decode, wellFormed?_eq_none_iff.mpr hstray]
        rfl
      rw [Source.plain_cons, hdecode, List.length_cons]
      exact congrArg (· + 1) ih
  · rintro rfl
    induction t using Source.text_induction with
    | nil => exact .nil
    | char b rest ih =>
      rw [Source.plain_cons, List.length_cons]
      cases hread : wellFormed? b rest with
      | none =>
        rw [decode, hread] at ih ⊢
        exact .stray (wellFormed?_eq_none_iff.mp hread) ih
      | some d =>
        rw [decode, hread, Option.getD_some] at ih ⊢
        obtain ⟨hbytes, hscalar⟩ := take_wellFormed? hread
        have hsplit : String.utf8EncodeChar (Char.ofNat d.code) ++ rest.drop (d.width - 1) =
            b :: rest := by
          obtain ⟨w, hw⟩ : ∃ w, d.width = w + 1 :=
            ⟨_, (Nat.sub_add_cancel (width_wellFormed_pos hread)).symm⟩
          rw [utf8EncodeChar_eq, toNat_ofNat hscalar, ← hbytes, hw, Nat.add_sub_cancel,
            List.take_succ_cons, List.cons_append, List.take_append_drop]
        rw [← hsplit]
        exact .char ih

end Utf8

namespace Text

variable {t rest : Text} {b : UInt8} {i n w : Nat}

/-- A line ends after byte `i`: a line feed, or a carriage return with no line feed after it. -/
def endsLine (t : Text) (i : Nat) : Bool :=
  t[i]? == some 0x0A || (t[i]? == some 0x0D && t[i + 1]? != some 0x0A)

/-- Where the line of byte `n` begins: after the last line terminator before it. -/
def lineStart (t : Text) : (n : Nat) → Nat
  | 0 => 0
  | n + 1 => if t.endsLine n then n + 1 else t.lineStart n

/-- How many line terminators stand before byte `n`. -/
def lineEnds (t : Text) (n : Nat) : Nat := (List.range n).countP t.endsLine

theorem lineEnds_succ (t : Text) (n : Nat) :
    t.lineEnds (n + 1) = t.lineEnds n + if t.endsLine n then 1 else 0 := by
  rw [lineEnds, List.range_succ, List.countP_append, List.countP_singleton, lineEnds]

theorem lineStart_le (t : Text) (n : Nat) : t.lineStart n ≤ n := by
  induction n with
  | zero => exact Nat.le.refl
  | succ n ih =>
    rw [lineStart]
    split_ifs
    · exact Nat.le.refl
    · exact Nat.le_succ_of_le ih

/-- Bytes that end no line leave the count as it is. -/
theorem line_add (h : ∀ i, n ≤ i → i < n + w → t.endsLine i = false) :
    t.lineStart (n + w) = t.lineStart n ∧ t.lineEnds (n + w) = t.lineEnds n := by
  induction w with
  | zero => exact ⟨rfl, rfl⟩
  | succ w ih =>
    obtain ⟨hstart, hends⟩ := ih fun i hle hlt => h i hle (Nat.lt_succ_of_lt hlt)
    have hlast := h (n + w) (Nat.le_add_right n w) (Nat.lt_succ_self _)
    rw [← Nat.add_assoc, lineStart, lineEnds_succ, hlast]
    exact ⟨hstart, hends⟩

theorem getElem?_of_drop (h : t.drop n = b :: rest) (i : Nat) : t[n + i]? = (b :: rest)[i]? := by
  rw [← h, List.getElem?_drop]

theorem endsLine_of_drop (h : t.drop n = b :: rest) :
    t.endsLine n = (b == 0x0A || (b == 0x0D && rest.head? != some 0x0A)) := by
  have hbyte : t[n]? = some b := getElem?_of_drop h 0
  have hnext : t[n + 1]? = rest.head? := by
    rw [getElem?_of_drop h 1, List.getElem?_cons_succ, List.head?_eq_getElem?]
  rw [endsLine, hbyte, hnext]
  rfl

/-- No byte past ASCII ends a line. -/
theorem endsLine_of_ge (h : t[i]? = some b) (hb : 0x80 ≤ b.toNat) : t.endsLine i = false := by
  have hfeed : b ≠ 0x0A := by
    rintro rfl
    exact absurd hb (by decide)
  have hreturn : b ≠ 0x0D := by
    rintro rfl
    exact absurd hb (by decide)
  rw [endsLine, h]
  simp [hfeed, hreturn]

end Text

namespace Position

variable {t rest : Text} {p : Position} {b : UInt8} {n : Nat}

/-- A position as it is counted from the text: its line is the number of line terminators before its
byte, and its column is the number of characters between the last of them, or the beginning of the
text, and its byte. -/
structure IsCounted (t : Text) (p : Position) : Prop where
  le : p.index ≤ t.length
  line : p.line = t.lineEnds p.index
  column : Utf8.HasLength ((t.take p.index).drop (t.lineStart p.index)) p.column

/-- A position that some of the characters of its line stand before. It is no byte inside another
character, so that the characters after it are those of the text from there on. -/
structure Follows (t : Text) (p : Position) : Prop where
  le : p.index ≤ t.length
  line : p.line = t.lineEnds p.index
  column : ∃ as, plain (t.drop (t.lineStart p.index)) = as ++ plain (t.drop p.index) ∧
    as.length = p.column

theorem Follows.isCounted (h : p.Follows t) : p.IsCounted t := by
  obtain ⟨as, hplain, hlength⟩ := h.column
  have hle := t.lineStart_le p.index
  -- The characters before the position are read alike when the text is cut off behind them.
  have hbytes := congrArg bytes hplain
  rw [Source.bytes_append, Source.bytes_plain, Source.bytes_plain] at hbytes
  have hcount : (bytes as).length = p.index - t.lineStart p.index := by
    have hindex := h.le
    have hsum := congrArg List.length hbytes
    rw [List.length_append, List.length_drop, List.length_drop] at hsum
    omega
  refine ⟨h.le, h.line, Utf8.hasLength_iff.mpr ?_⟩
  rw [List.drop_take, hbytes, List.take_left' hcount, Source.plain_bytes hplain, hlength]

theorem follows_origin (t : Text) : Follows t .origin :=
  ⟨Nat.zero_le _, rfl, [], rfl, rfl⟩

/-- Whether the character `b :: rest` begins with ends its line. -/
abbrev isTerminator (b : UInt8) (rest : Text) : Bool :=
  (Utf8.decode b rest).code == 0xA ||
    ((Utf8.decode b rest).code == 0xD && !(rest.head? == some 0xA))

/-- A character that ends its line is the byte that ends it. -/
theorem endsLine_of_isTerminator (hdrop : t.drop n = b :: rest) (h : isTerminator b rest = true) :
    (Utf8.decode b rest).width = 1 ∧ t.endsLine n = true := by
  have hcode : (Utf8.decode b rest).code < 0x80 := by
    simp only [isTerminator, Bool.or_eq_true, Bool.and_eq_true, beq_iff_eq] at h
    omega
  have hb : b.toNat < 0x80 := Source.code_decode_of_ascii hcode ▸ hcode
  rw [isTerminator, Utf8.decode_ascii hb] at h
  rw [Utf8.decode_ascii hb, Text.endsLine_of_drop hdrop]
  refine ⟨rfl, ?_⟩
  simpa [← UInt8.toNat_inj] using h

/-- A character that does not end its line has no byte that does. -/
theorem endsLine_of_not_isTerminator (hdrop : t.drop n = b :: rest)
    (h : isTerminator b rest = false) :
    ∀ i, n ≤ i → i < n + (Utf8.decode b rest).width → t.endsLine i = false := by
  intro i hle hlt
  by_cases hb : b.toNat < 0x80
  · rw [isTerminator, Utf8.decode_ascii hb] at h
    rw [Utf8.decode_ascii hb] at hlt
    obtain rfl : i = n := Nat.le_antisymm (Nat.le_of_lt_succ hlt) hle
    rw [Text.endsLine_of_drop hdrop]
    simpa [← UInt8.toNat_inj] using h
  · have hcode : 0x80 ≤ (Utf8.decode b rest).code := by
      by_contra hascii
      have hlt' := Nat.lt_of_not_le hascii
      exact hb (Source.code_decode_of_ascii hlt' ▸ hlt')
    obtain ⟨j, rfl⟩ := Nat.exists_eq_add_of_le hle
    have hbyte : t[n + j]? = ((b :: rest).take (Utf8.decode b rest).width)[j]? := by
      rw [Text.getElem?_of_drop hdrop, List.getElem?_take_of_lt (by omega)]
    have hj : j < ((b :: rest).take (Utf8.decode b rest).width).length := by
      rw [List.length_take_of_le (Utf8.width_decode_le b rest)]
      omega
    rw [List.getElem?_eq_getElem hj] at hbyte
    have hfaithful := Source.bytes_decode b rest .origin
    exact Text.endsLine_of_ge hbyte (hfaithful.toNat_ge hcode (List.getElem_mem hj))

theorem drop_add_width (hdrop : t.drop n = b :: rest) :
    t.drop (n + (Utf8.decode b rest).width) = rest.drop ((Utf8.decode b rest).width - 1) := by
  obtain ⟨w, hw⟩ : ∃ w, (Utf8.decode b rest).width = w + 1 :=
    ⟨_, (Nat.sub_add_cancel (Utf8.width_decode_pos b rest)).symm⟩
  rw [hw, ← List.drop_drop, hdrop, List.drop_succ_cons, Nat.add_sub_cancel]

/-- The characters after the first. -/
theorem exists_plain_drop (hdrop : t.drop n = b :: rest) :
    ∃ c, plain (t.drop n) = c :: plain (t.drop (n + (Utf8.decode b rest).width)) := by
  rw [drop_add_width hdrop, hdrop, Source.plain_cons]
  exact ⟨_, rfl⟩

/-- Going past a character keeps the count. -/
theorem Follows.after (h : p.Follows t) (hdrop : t.drop p.index = b :: rest) :
    (p.after (Utf8.decode b rest).code (Utf8.decode b rest).width
      (rest.head? == some 0xA)).Follows t := by
  have hle : p.index + (Utf8.decode b rest).width ≤ t.length := by
    have hlength := congrArg List.length hdrop
    have hwidth := Utf8.width_decode_le b rest
    rw [List.length_drop, List.length_cons] at hlength
    omega
  rw [Position.after]
  -- A terminator is one byte and begins a new line; any other character has no byte that ends a line,
  -- so that it only joins those before it.
  split_ifs with hterminator
  · obtain ⟨hwidth, hends⟩ := endsLine_of_isTerminator hdrop hterminator
    rw [hwidth] at hle ⊢
    refine ⟨hle, ?_, [], ?_, rfl⟩
    · rw [Text.lineEnds_succ, hends, h.line]
      rfl
    · rw [Text.lineStart, hends]
      rfl
  · have hnone := endsLine_of_not_isTerminator hdrop (Bool.eq_false_iff.mpr hterminator)
    obtain ⟨hstart, hends⟩ := Text.line_add hnone
    obtain ⟨as, hplain, hcolumn⟩ := h.column
    obtain ⟨c, hchar⟩ := exists_plain_drop hdrop
    refine ⟨hle, h.line.trans hends.symm, as ++ [c], ?_, ?_⟩
    · rw [hstart, hplain, hchar, List.append_assoc]
      rfl
    · rw [List.length_append, hcolumn]
      rfl

end Position

namespace Source

variable {t u : Text} {p : Position}

/-- The characters that are read from a position on stand where they are counted. -/
theorem follows_read (hp : p.Follows t) (hu : t.drop p.index = u) :
    (∀ c ∈ (read 0 p u).chars, c.position.Follows t) ∧ (read 0 p u).stop.Follows t := by
  induction u using text_induction generalizing p with
  | nil => exact ⟨List.forall_mem_nil _, hp⟩
  | char b rest ih =>
    have hafter := hp.after hu
    have hrest : t.drop (p.after (Utf8.decode b rest).code (Utf8.decode b rest).width
        (rest.head? == some 0xA)).index = rest.drop ((Utf8.decode b rest).width - 1) := by
      rw [Position.index_after, Position.drop_add_width hu]
    obtain ⟨hchars, hstop⟩ := ih hafter hrest
    rw [read]
    dsimp only
    rw [read_drop]
    exact ⟨List.forall_mem_cons.mpr ⟨hp, hchars⟩, hstop⟩

end Source

end GraphQL
