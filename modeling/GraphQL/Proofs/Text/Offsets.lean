import GraphQL.Proofs.Source.Counting

/-! Decoding at an offset of a text. A character is decoded exactly where its encoding stands,
whatever stands around it; where no encoding begins, one malformed byte is. -/

namespace GraphQL.Utf8

/-- What is decoded at an offset of a text; past its end there is nothing. -/
def decodeAt? (t : Text) (offset : Nat) : Option Decoded :=
  match t.drop offset with
  | [] => none
  | b :: rest => some (decode b rest)

variable {t : Text} {i : Nat}

theorem decodeAt?_of_drop {b : UInt8} {rest : Text} (h : t.drop i = b :: rest) :
    decodeAt? t i = some (decode b rest) := by
  rw [decodeAt?, h]

theorem exists_drop_of_lt (h : i < t.length) : ∃ b rest, t.drop i = b :: rest :=
  ⟨_, _, List.drop_eq_getElem_cons h⟩

theorem decodeAt?_of_length_le (h : t.length ≤ i) : decodeAt? t i = none := by
  rw [decodeAt?, List.drop_of_length_le h]

/-- The code of a malformed byte is that of no character. -/
theorem toNat_ne_malformed (c : Char) : c.toNat ≠ malformed := by
  have hbound : c.toNat ≤ 0x10FFFF := (isScalarValue_iff.mp (isScalarValue_toNat c)).1
  unfold malformed
  omega

/-- Characters show as strings write them. -/
theorem display_toNat (c : Char) : display c.toNat = String.utf8EncodeChar c := by
  rw [display, if_neg (toNat_ne_malformed c), utf8EncodeChar_eq]

theorem decodeAt?_of_isPrefix {c : Char} (h : String.utf8EncodeChar c <+: t.drop i) :
    decodeAt? t i = some ⟨c.toNat, (String.utf8EncodeChar c).length⟩ := by
  obtain ⟨after, hafter⟩ := h
  obtain ⟨b, more, hencode, hread⟩ := wellFormed?_encode (isScalarValue_toNat c) after
  rw [utf8EncodeChar_eq, hencode] at hafter ⊢
  rw [List.cons_append] at hafter
  rw [decodeAt?_of_drop hafter.symm, decode, hread]
  rfl

/-- A byte at which no encoding begins is malformed. -/
theorem decodeAt?_of_not_isPrefix (hi : i < t.length)
    (h : ∀ c, ¬ String.utf8EncodeChar c <+: t.drop i) : decodeAt? t i = some ⟨malformed, 1⟩ := by
  obtain ⟨b, rest, hdrop⟩ := exists_drop_of_lt hi
  rw [hdrop] at h
  rw [decodeAt?_of_drop hdrop, decode, wellFormed?_eq_none_iff.mpr h]
  rfl

theorem decodeAt?_eq_malformed_iff : decodeAt? t i = some ⟨malformed, 1⟩ ↔
    i < t.length ∧ ∀ c, ¬ String.utf8EncodeChar c <+: t.drop i := by
  refine ⟨fun h => ⟨?_, fun c hc => ?_⟩, fun ⟨hi, h⟩ => decodeAt?_of_not_isPrefix hi h⟩
  · by_contra hi
    rw [decodeAt?_of_length_le (Nat.le_of_not_lt hi)] at h
    cases h
  · rw [decodeAt?_of_isPrefix hc] at h
    exact toNat_ne_malformed c (congrArg Decoded.code (Option.some.inj h))

/-- Decoding accepts well-formed text and nothing else. A character is decoded from its encoding,
which is that of strings, with the width of the encoding, whatever stands before and after it; a
malformed byte is decoded exactly at the offsets inside a text where no encoding begins. -/
theorem decodeAt?_exact :
    (∀ (c : Char) (before after : Text), display c.toNat = String.utf8EncodeChar c ∧
      decodeAt? (before ++ display c.toNat ++ after) before.length =
        some ⟨c.toNat, (display c.toNat).length⟩) ∧
    ∀ (t : Text) (i : Nat), decodeAt? t i = some ⟨malformed, 1⟩ ↔
      i < t.length ∧ ∀ c : Char, ¬ display c.toNat <+: t.drop i := by
  refine ⟨fun c before after => ⟨display_toNat c, ?_⟩, fun t i => ?_⟩
  · have hprefix : String.utf8EncodeChar c <+:
        (before ++ display c.toNat ++ after).drop before.length := by
      rw [List.append_assoc, List.drop_left, display_toNat]
      exact List.prefix_append _ _
    rw [display_toNat] at hprefix ⊢
    exact decodeAt?_of_isPrefix hprefix
  · simp only [display_toNat]
    exact decodeAt?_eq_malformed_iff

/-- An overlong form, half a surrogate pair, and a sequence that the text cuts off. -/
example : decodeAt? [0x61, 0xC0, 0xAF] 1 = some ⟨malformed, 1⟩ ∧
    decodeAt? [0xED, 0xA0, 0x80] 0 = some ⟨malformed, 1⟩ ∧
    decodeAt? [0xE2, 0x82] 0 = some ⟨malformed, 1⟩ := by
  decide

end GraphQL.Utf8
