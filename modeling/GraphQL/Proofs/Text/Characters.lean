import GraphQL.Proofs.Text.Utf8

/-! Characters of well-formed text. They are scalar values, each in its own encoding, which is that
of strings; a text of such characters is taken apart into bytes of ASCII and longer sequences. -/

namespace GraphQL

theorem lit_append (a b : String) : lit (a ++ b) = lit a ++ lit b := by
  rw [lit, String.toByteArray_append, ByteArray.data_append, Array.toList_append]
  rfl

theorem lit_singleton (c : Char) : lit (String.singleton c) = String.utf8EncodeChar c := by
  rw [lit, String.toByteArray_singleton, List.utf8Encode, List.flatMap_singleton]
  simp

/-- The bytes of a string are its characters, encoded one after another. -/
theorem lit_eq_flatMap (s : String) : lit s = s.toList.flatMap String.utf8EncodeChar := by
  conv => lhs; rw [← String.ofList_toList (s := s)]
  induction s.toList with
  | nil => rfl
  | cons c cs ih => rw [String.ofList_cons, lit_append, lit_singleton, ih, List.flatMap_cons]

namespace Utf8

variable {p : Nat → Prop} {t rest : Text}

/-- Well-formed UTF-8 of characters with a property. -/
inductive Spells (p : Nat → Prop) : Text → Prop
  | nil : Spells p []
  | char {c : Nat} {rest : Text} : isScalarValue c = true → p c → Spells p rest →
      Spells p (encode c ++ rest)

theorem Spells.append (ht : Spells p t) (hrest : Spells p rest) : Spells p (t ++ rest) := by
  induction ht with
  | nil => exact hrest
  | char hscalar hc _ ih =>
    rw [List.append_assoc]
    exact .char hscalar hc ih

theorem Spells.encode {c : Nat} (hscalar : isScalarValue c = true) (hc : p c) :
    Spells p (encode c) := by
  have h := Spells.char hscalar hc .nil
  rwa [List.append_nil] at h

theorem isHighSurrogate_iff {c : Nat} : isHighSurrogate c = true ↔ 0xD800 ≤ c ∧ c ≤ 0xDBFF := by
  rw [isHighSurrogate, Bool.and_eq_true, decide_eq_true_eq, decide_eq_true_eq]

theorem isLowSurrogate_iff {c : Nat} : isLowSurrogate c = true ↔ 0xDC00 ≤ c ∧ c ≤ 0xDFFF := by
  rw [isLowSurrogate, Bool.and_eq_true, decide_eq_true_eq, decide_eq_true_eq]

theorem isSurrogate_iff {c : Nat} : isSurrogate c = true ↔ 0xD800 ≤ c ∧ c ≤ 0xDFFF := by
  rw [isSurrogate, Bool.or_eq_true, isHighSurrogate_iff, isLowSurrogate_iff]
  omega

theorem isScalarValue_iff {c : Nat} :
    isScalarValue c = true ↔ c ≤ 0x10FFFF ∧ (c < 0xD800 ∨ 0xDFFF < c) := by
  rw [isScalarValue, Bool.and_eq_true, decide_eq_true_eq, Bool.not_eq_true', ← Bool.not_eq_true,
    isSurrogate_iff]
  omega

theorem Spells.ascii {b : UInt8} (hb : b.toNat < 0x80) (hp : p b.toNat) (hrest : Spells p rest) :
    Spells p (b :: rest) := by
  have h := Spells.char (isScalarValue_iff.mpr (by omega)) hp hrest
  rwa [encode_ascii hb, UInt8.ofNat_toNat] at h

/-- A byte of ASCII is a character of its own. -/
theorem spells_ascii_iff {b : UInt8} (hb : b.toNat < 0x80) :
    Spells p (b :: rest) ↔ p b.toNat ∧ Spells p rest := by
  refine ⟨fun h => ?_, fun ⟨hp, hrest⟩ => hrest.ascii hb hp⟩
  generalize ht : b :: rest = t at h
  cases h with
  | nil => cases ht
  | @char c after hscalar hc hafter =>
    by_cases hascii : c < 0x80
    · rw [encode_ascii hascii] at ht
      cases ht
      rw [toNat_byte (by omega)]
      exact ⟨hc, hafter⟩
    · obtain ⟨d, more, hencode, -⟩ := wellFormed?_encode hscalar []
      have hd := toNat_ge_of_mem_encode (Nat.le_of_not_lt hascii) (hencode ▸ List.mem_cons_self)
      rw [hencode] at ht
      cases ht
      omega

theorem Spells.mono {q : Nat → Prop} (h : Spells p t) (hpq : ∀ c, p c → q c) : Spells q t := by
  induction h with
  | nil => exact .nil
  | char hscalar hc _ ih => exact .char hscalar (hpq _ hc) ih

/-- No byte of a longer character is ASCII. -/
theorem ne_of_mem_encode {c : Nat} (hc : 0x80 ≤ c) {d : UInt8} (hd : d.toNat < 0x80) :
    ∀ b ∈ encode c, b ≠ d := by
  rintro b hb rfl
  exact absurd (toNat_ge_of_mem_encode hc hb) (by omega)

/-- Well-formed text is taken apart by bytes of ASCII and longer characters. -/
theorem Spells.cases_ascii {p : Nat → Prop} {motive : Text → Prop} {t : Text} (h : Spells p t)
    (nil : motive [])
    (ascii : ∀ (b : UInt8) rest, b.toNat < 0x80 → p b.toNat → Spells p rest → motive rest →
      motive (b :: rest))
    (long : ∀ c rest, 0x80 ≤ c → isScalarValue c = true → p c → Spells p rest → motive rest →
      motive (Utf8.encode c ++ rest)) : motive t := by
  induction h with
  | nil => exact nil
  | @char c rest hscalar hc hrest ih =>
    by_cases hascii : c < 0x80
    · have hb : (UInt8.ofNat c).toNat = c := toNat_byte (by omega)
      rw [encode_ascii hascii]
      exact ascii _ rest (by rwa [hb]) (by rwa [hb]) hrest ih
    · exact long c rest (Nat.le_of_not_lt hascii) hscalar hc hrest ih

/-- The code of a character is a scalar value. -/
theorem isScalarValue_toNat (c : Char) : isScalarValue c.toNat = true := by
  have hvalid : c.toNat < 0xD800 ∨ 0xDFFF < c.toNat ∧ c.toNat < 0x110000 := c.valid
  exact isScalarValue_iff.mpr (by omega)

/-- Characters are encoded as in strings. -/
theorem utf8EncodeChar_eq (c : Char) : String.utf8EncodeChar c = encode c.toNat := by
  have hbound : c.val.toNat ≤ 0x10FFFF := (isScalarValue_iff.mp (isScalarValue_toNat c)).1
  change String.utf8EncodeChar c = encode c.val.toNat
  have hbytes {ms ns : List Nat} (h : ms = ns) : ms.map UInt8.ofNat = ns.map UInt8.ofNat :=
    congrArg _ h
  simp only [String.utf8EncodeChar, encode, continuation]
  generalize c.val.toNat = n at hbound
  by_cases hone : n < 0x80
  · rw [if_pos (Nat.le_of_lt_succ hone), if_pos hone]
  rw [if_neg (mt Nat.lt_succ_of_le hone), if_neg hone]
  by_cases htwo : n < 0x800
  · rw [if_pos (Nat.le_of_lt_succ htwo), if_pos htwo]
    have hnats : [n / 64 % 32 + 192, n % 64 + 128] = [0xC0 + n / 0x40, 0x80 + n % 0x40] := by
      simp only [List.cons.injEq, and_true]
      omega
    exact hbytes hnats
  rw [if_neg (mt Nat.lt_succ_of_le htwo), if_neg htwo]
  by_cases hthree : n < 0x10000
  · rw [if_pos (Nat.le_of_lt_succ hthree), if_pos hthree]
    have hnats : [n / 4096 % 16 + 224, n / 64 % 64 + 128, n % 64 + 128] =
        [0xE0 + n / 0x1000, 0x80 + n / 0x40 % 0x40, 0x80 + n % 0x40] := by
      simp only [List.cons.injEq, and_true]
      omega
    exact hbytes hnats
  · rw [if_neg (mt Nat.lt_succ_of_le hthree), if_neg hthree]
    have hnats : [n / 262144 % 8 + 240, n / 4096 % 64 + 128, n / 64 % 64 + 128, n % 64 + 128] =
        [0xF0 + n / 0x40000 % 0x10, 0x80 + n / 0x1000 % 0x40, 0x80 + n / 0x40 % 0x40,
          0x80 + n % 0x40] := by
      simp only [List.cons.injEq, and_true]
      omega
    exact hbytes hnats

/-- Characters one after another are well-formed. -/
theorem spells_flatMap (cs : List Char) :
    Spells (fun _ => True) (cs.flatMap String.utf8EncodeChar) := by
  induction cs with
  | nil => exact .nil
  | cons c cs ih =>
    rw [List.flatMap_cons, utf8EncodeChar_eq]
    exact .char (isScalarValue_toNat c) trivial ih

theorem toNat_ofNat {c : Nat} (h : isScalarValue c = true) : (Char.ofNat c).toNat = c := by
  have hvalid : c.isValidChar := by
    have := isScalarValue_iff.mp h
    unfold Nat.isValidChar
    omega
  rw [Char.ofNat, dif_pos hvalid]
  rfl

theorem encode_eq_lit {c : Nat} (h : isScalarValue c = true) :
    encode c = lit (String.singleton (Char.ofNat c)) := by
  rw [lit_singleton, utf8EncodeChar_eq, toNat_ofNat h]

end Utf8

end GraphQL
