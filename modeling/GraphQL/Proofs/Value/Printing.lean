import Mathlib.Tactic.IntervalCases
import GraphQL.InputValue.Parser
import GraphQL.Proofs.Token.Lexeme

/-! The texts of scalars. An integer's digits are one number to the lexer, and write that integer;
what stands between a string's quotes is one body, and decodes to the string. -/

namespace GraphQL

/-! ### Integers -/

namespace Text

/-- The last digit of a number. -/
def lastDigit (n : Nat) : UInt8 := UInt8.ofNat (0x30 + n % 10)

theorem toNat_lastDigit (n : Nat) : (lastDigit n).toNat = 0x30 + n % 10 :=
  Utf8.toNat_byte (by omega)

theorem byte_digitChar {d : Nat} (h : d < 10) :
    byte (Nat.digitChar d) = UInt8.ofNat (0x30 + d) := by
  interval_cases d <;> rfl

theorem ofNat_of_lt {n : Nat} (h : n < 10) : ofNat n = [lastDigit n] := by
  rw [ofNat, Nat.toDigits_of_lt_base h, lastDigit, Nat.mod_eq_of_lt h, ← byte_digitChar h]
  rfl

/-- The last digit of a number comes after the digits of its tenth. -/
theorem ofNat_of_le {n : Nat} (h : 10 ≤ n) : ofNat n = ofNat (n / 10) ++ [lastDigit n] := by
  have hdigit : byte (Nat.digitChar (n % 10)) = lastDigit n :=
    byte_digitChar (Nat.mod_lt n (by decide))
  rw [ofNat, Nat.toDigits_of_base_le (by decide) h, List.map_append, ← hdigit]
  rfl

/-- Numbers are taken apart digit by digit, from the last on. -/
theorem digit_induction {motive : Nat → Prop} (small : ∀ n, n < 10 → motive n)
    (more : ∀ n, 10 ≤ n → motive (n / 10) → motive n) (n : Nat) : motive n := by
  induction n using Nat.strongRecOn with
  | ind n ih =>
    by_cases h : n < 10
    · exact small n h
    · exact more n (Nat.le_of_not_lt h) (ih _ (Nat.div_lt_self (by omega) (by decide)))

theorem ofNat_ne_nil (n : Nat) : ofNat n ≠ [] :=
  mt List.map_eq_nil_iff.mp Nat.toDigits_ne_nil

theorem isDigit_toNat (b : UInt8) : CharClass.isDigit b.toNat = Decimal.isDigit b := by
  simp [CharClass.isDigit, Decimal.isDigit, UInt8.le_iff_toNat_le]

theorem isDigit_lastDigit (n : Nat) : Decimal.isDigit (lastDigit n) = true := by
  rw [← isDigit_toNat, toNat_lastDigit]
  have hlow : 0x30 ≤ 0x30 + n % 10 := by omega
  have hhigh : 0x30 + n % 10 ≤ 0x39 := by omega
  simp only [CharClass.isDigit, hlow, hhigh, decide_true, Bool.and_self]

theorem isDigit_ofNat (n : Nat) : ∀ b ∈ ofNat n, Decimal.isDigit b = true := by
  induction n using digit_induction with
  | small n h =>
    rw [ofNat_of_lt h]
    exact List.forall_mem_singleton.mpr (isDigit_lastDigit n)
  | more n h ih =>
    rw [ofNat_of_le h, List.forall_mem_append]
    exact ⟨ih, List.forall_mem_singleton.mpr (isDigit_lastDigit n)⟩

/-- Only zero is written with a zero at the front. -/
theorem head_ofNat {n : Nat} (h : 0 < n) : (ofNat n).head? ≠ some 0x30 := by
  induction n using digit_induction with
  | small n hn =>
    rw [ofNat_of_lt hn, List.head?_cons, ne_eq, Option.some.injEq]
    intro hzero
    have hnat := toNat_lastDigit n
    rw [hzero, Nat.mod_eq_of_lt hn] at hnat
    change 0x30 = 0x30 + n at hnat
    omega
  | more n hn ih =>
    obtain ⟨b, more, hcons⟩ := List.exists_cons_of_ne_nil (ofNat_ne_nil (n / 10))
    have hhead := ih (Nat.div_pos hn (by decide))
    rw [hcons] at hhead
    rw [ofNat_of_le hn, hcons]
    exact hhead

end Text

namespace Decimal

theorem value_append (t : Text) (b : UInt8) :
    value (t ++ [b]) = value t * 10 + (b.toNat - 0x30) := by
  rw [value, List.foldl_append]
  rfl

theorem value_ofNat (n : Nat) : value (Text.ofNat n) = n := by
  induction n using Text.digit_induction with
  | small n h =>
    have hvalue := value_append [] (Text.lastDigit n)
    rw [Text.toNat_lastDigit] at hvalue
    rw [Text.ofNat_of_lt h]
    refine hvalue.trans ?_
    change 0 * 10 + _ = n
    omega
  | more n h ih =>
    rw [Text.ofNat_of_le h, value_append, ih, Text.toNat_lastDigit]
    omega

theorem sign_of_digits {t : Text} (h : ∀ b ∈ t, isDigit b = true) : sign t = (false, t) := by
  unfold sign
  split
  · exact absurd (h _ List.mem_cons_self) (by decide)
  · rfl

/-- The digits of an integer write it. -/
theorem readInt?_ofInt (n : Int) : readInt? (Text.ofInt n) = some n := by
  have hdigits (m : Nat) : ((Text.ofNat m).isEmpty || !(Text.ofNat m).all isDigit) = false := by
    rw [Bool.or_eq_false_iff, Bool.not_eq_false', List.all_eq_true, List.isEmpty_eq_false_iff]
    exact ⟨Text.ofNat_ne_nil m, Text.isDigit_ofNat m⟩
  cases n with
  | ofNat m =>
    rw [Text.ofInt, readInt?, sign_of_digits (Text.isDigit_ofNat m)]
    simp only [hdigits, value_ofNat, Bool.false_eq_true, if_false]
    rfl
  | negSucc m =>
    have hsign : sign (Text.ofInt (.negSucc m)) = (true, Text.ofNat (m + 1)) := rfl
    rw [readInt?, hsign]
    simp only [hdigits, value_ofNat, Bool.false_eq_true, if_false, if_true]
    rfl

end Decimal

theorem Scalar.ofInt?_toInt (n : Int32) : Scalar.ofInt? n.toInt = some (.int n) := by
  have hlow := n.le_toInt
  have hhigh := n.toInt_lt
  rw [Scalar.ofInt?, if_pos, Int32.ofInt_toInt]
  rw [Bool.and_eq_true, decide_eq_true_eq, decide_eq_true_eq]
  omega

/-- Every integer of 32 bits is read off its digits, the smallest included. -/
theorem Scalars.parseInt_ofInt (n : Int32) :
    Scalars.parseInt (.int (Text.ofInt n.toInt)) = .ok (.int n) := by
  rw [Scalars.parseInt, Decimal.readInt?_ofInt, Option.bind_some, Scalar.ofInt?_toInt]

namespace Lexer

theorem codes_plain_append_ascii {t : Text} (ht : ∀ b ∈ t, b.toNat < 0x80) (rest : Text) :
    codes (Source.plain (t ++ rest)) = t.map UInt8.toNat ++ codes (Source.plain rest) := by
  rw [Source.plain_append_ascii ht, codes_append, codes, List.map_map]
  rfl

theorem codes_plain_of_ascii {t : Text} (ht : ∀ b ∈ t, b.toNat < 0x80) :
    codes (Source.plain t) = t.map UInt8.toNat := by
  have hcodes := codes_plain_append_ascii ht []
  rwa [List.append_nil, Source.plain_nil, codes_nil, List.append_nil] at hcodes

theorem isWhole_ofNat (n : Nat) : IsWhole ((Text.ofNat n).map UInt8.toNat) := by
  cases n with
  | zero => exact .inl rfl
  | succ n =>
    refine .inr ⟨⟨mt List.map_eq_nil_iff.mp (Text.ofNat_ne_nil _), List.forall_mem_map.mpr ?_⟩, ?_⟩
    · intro b hb
      rw [Text.isDigit_toNat]
      exact Text.isDigit_ofNat _ b hb
    · rw [List.head?_map, ne_eq, Option.map_eq_some_iff]
      rintro ⟨b, hb, hzero⟩
      have hb' : b = 0x30 := UInt8.toNat_inj.mp hzero
      exact Text.head_ofNat n.succ_pos (hb' ▸ hb)

theorem isNumber_ofInt (n : Int) : IsNumber false ((Text.ofInt n).map UInt8.toNat) := by
  cases n with
  | ofNat m =>
    refine ⟨[], _, [], [], ?_, .inl rfl, isWhole_ofNat m, .inl rfl, .inl rfl, rfl⟩
    simp [Text.ofInt]
  | negSucc m =>
    refine ⟨[0x2D], _, [], [], ?_, .inr rfl, isWhole_ofNat (m + 1), .inl rfl, .inl rfl, rfl⟩
    simp [Text.ofInt]
    rfl

theorem ascii_ofInt (n : Int) : ∀ b ∈ Text.ofInt n, b.toNat < 0x80 := by
  have hdigit (m : Nat) : ∀ b ∈ Text.ofNat m, b.toNat < 0x80 := by
    intro b hb
    have hb' := Text.isDigit_ofNat m b hb
    rw [← Text.isDigit_toNat, CharClass.isDigit, Bool.and_eq_true, decide_eq_true_eq,
      decide_eq_true_eq] at hb'
    omega
  cases n with
  | ofNat m => exact hdigit m
  | negSucc m => exact List.forall_mem_cons.mpr ⟨by decide, hdigit (m + 1)⟩

theorem lexeme_ofInt (n : Int) : Lexeme (.scalar (.int (Text.ofInt n)))
    (Source.plain (Text.ofInt n)) := by
  have hcodes := codes_plain_of_ascii (ascii_ofInt n)
  have hnumber := Lexeme.number (hcodes ▸ isNumber_ofInt n)
  rwa [Source.bytes_plain] at hnumber

end Lexer

/-! ### Strings -/

namespace Escape

/-- A byte as it stands between quotes decodes to itself. -/
theorem decodeFrom_quoteByte (b : UInt8) (rest : Text) :
    decodeFrom 0 (Scalar.quoteByte b ++ rest) = (b :: ·) <$> decodeFrom 0 rest := by
  unfold Scalar.quoteByte
  split_ifs with hquote hbackslash hfeed hreturn htab
  · rw [eq_of_beq hquote]
    rfl
  · rw [eq_of_beq hbackslash]
    rfl
  · rw [eq_of_beq hfeed]
    rfl
  · rw [eq_of_beq hreturn]
    rfl
  · rw [eq_of_beq htab]
    rfl
  · exact if_neg hbackslash

/-- Decoding undoes quoting, whatever bytes the text holds. -/
theorem decode_quoted (t : Text) : decode (t.flatMap Scalar.quoteByte) = .ok t := by
  induction t with
  | nil => rfl
  | cons b t ih =>
    rw [List.flatMap_cons, decode, decodeFrom_quoteByte, ← decode, ih]
    rfl

end Escape

/-- Well-formed UTF-8 of characters that a string may hold. -/
def IsStringText (t : Text) : Prop :=
  ∃ cs : List Nat, t = cs.flatMap Utf8.encode ∧
    ∀ c ∈ cs, Utf8.isScalarValue c = true ∧ CharClass.isSource c = true

/-- Bytes past ASCII are not escaped. -/
theorem Scalar.quoteByte_of_le {b : UInt8} (h : 0x80 ≤ b.toNat) : Scalar.quoteByte b = [b] := by
  have hne {c : UInt8} (hc : c.toNat < 0x80) : ¬ (b == c) = true := by
    intro hbc
    rw [eq_of_beq hbc] at h
    omega
  rw [Scalar.quoteByte, if_neg (hne (by decide)), if_neg (hne (by decide)),
    if_neg (hne (by decide)), if_neg (hne (by decide)), if_neg (hne (by decide))]

theorem Scalar.flatMap_quoteByte_of_le {t : Text} (h : ∀ b ∈ t, 0x80 ≤ b.toNat) :
    t.flatMap Scalar.quoteByte = t := by
  induction t with
  | nil => rfl
  | cons b t ih =>
    obtain ⟨hb, ht⟩ := List.forall_mem_cons.mp h
    rw [List.flatMap_cons, Scalar.quoteByte_of_le hb, ih ht, List.singleton_append]

namespace Lexer

theorem isQuotedChar_of_isSource {c : Nat} (hc : CharClass.isSource c = true)
    (hterm : c ≠ 0x0A ∧ c ≠ 0x0D) (hquote : c ≠ 0x22) (hbackslash : c ≠ 0x5C) :
    isQuotedChar c = true := by
  simp only [isQuotedChar, CharClass.isLineTerminator, hc, Bool.true_and, Bool.and_eq_true,
    Bool.not_eq_true', Bool.or_eq_false_iff, beq_eq_false_iff_ne, bne_iff_ne]
  exact ⟨⟨hterm, hquote⟩, hbackslash⟩

theorem isQuoted_quoteByte {b : UInt8} {rest : Text} (hascii : b.toNat < 0x80)
    (hb : CharClass.isSource b.toNat = true) (hrest : IsQuoted (codes (Source.plain rest))) :
    IsQuoted (codes (Source.plain (Scalar.quoteByte b ++ rest))) := by
  have hescape {c : UInt8} (hc : (Escape.simple? c.toNat).isSome = true) (hc' : c.toNat < 0x80) :
      IsQuoted (codes (Source.plain ([0x5C, c] ++ rest))) := by
    rw [codes_plain_append_ascii (by simpa using hc')]
    exact .escape (.simple hc) hrest
  unfold Scalar.quoteByte
  split_ifs with hquote hbackslash hfeed hreturn htab
  · exact hescape (c := 0x22) rfl (by decide)
  · exact hescape (c := 0x5C) rfl (by decide)
  · exact hescape (c := 0x6E) rfl (by decide)
  · exact hescape (c := 0x72) rfl (by decide)
  · exact hescape (c := 0x74) rfl (by decide)
  · rw [codes_plain_append_ascii (by simpa using hascii)]
    simp only [beq_iff_eq, ← UInt8.toNat_inj] at hquote hbackslash hfeed hreturn
    exact .char (isQuotedChar_of_isSource hb ⟨hfeed, hreturn⟩ hquote hbackslash) hrest

theorem isQuoted_encode {c : Nat} {rest : Text} (hscalar : Utf8.isScalarValue c = true)
    (hc : CharClass.isSource c = true) (hrest : IsQuoted (codes (Source.plain rest))) :
    IsQuoted (codes (Source.plain ((Utf8.encode c).flatMap Scalar.quoteByte ++ rest))) := by
  -- what is escaped is ASCII, so quoting leaves the bytes of a longer character as they are
  by_cases hascii : c < 0x80
  · have hb : (UInt8.ofNat c).toNat = c := Utf8.toNat_byte (by omega)
    rw [Utf8.encode_ascii hascii, List.flatMap_singleton]
    exact isQuoted_quoteByte (hb.symm ▸ hascii) (hb.symm ▸ hc) hrest
  · have hbytes : ∀ b ∈ Utf8.encode c, 0x80 ≤ b.toNat := fun b hb =>
      Utf8.toNat_ge_of_mem_encode (Nat.le_of_not_lt hascii) hb
    rw [Scalar.flatMap_quoteByte_of_le hbytes, Source.plain_encode hscalar, codes_cons]
    have hchar : isQuotedChar c = true :=
      isQuotedChar_of_isSource hc (by omega) (by omega) (by omega)
    exact .char hchar hrest

/-- What stands between the quotes of a printed string is the body of one quoted string. -/
theorem isQuoted_flatMap {t : Text} (ht : IsStringText t) :
    IsQuoted (codes (Source.plain (t.flatMap Scalar.quoteByte))) := by
  obtain ⟨cs, rfl, hcs⟩ := ht
  induction cs with
  | nil => exact .nil
  | cons c cs ih =>
    obtain ⟨⟨hscalar, hc⟩, hcs⟩ := List.forall_mem_cons.mp hcs
    rw [List.flatMap_cons, List.flatMap_append]
    exact isQuoted_encode hscalar hc (ih hcs)

theorem lexeme_quote {t : Text} (ht : IsStringText t) :
    Lexeme (.scalar (.string .quoted (t.flatMap Scalar.quoteByte)))
      (Source.plain (Scalar.quote t)) := by
  have hmark : Source.plain [0x22] = [⟨0x22, [0x22], .origin⟩] := rfl
  have hplain : Source.plain (Scalar.quote t) = Source.plain [0x22] ++
      (Source.plain (t.flatMap Scalar.quoteByte) ++ Source.plain [0x22]) := by
    rw [Scalar.quote, List.append_assoc, ← Source.plain_append_fresh _ rfl, hmark]
    exact Source.plain_ascii (by decide) _
  have hstring : Lexeme
      (.scalar (.string .quoted (Source.bytes (Source.plain (t.flatMap Scalar.quoteByte)))))
      (Source.plain [0x22] ++
        (Source.plain (t.flatMap Scalar.quoteByte) ++ Source.plain [0x22])) :=
    .string rfl (isQuoted_flatMap ht) rfl
  rwa [Source.bytes_plain, ← hplain] at hstring

end Lexer

/-- A string is what its quoted body decodes to. -/
theorem Scalars.parseString_quoted (t : Text) :
    Scalars.parseString (.string .quoted (t.flatMap Scalar.quoteByte)) = .ok (.string t) := by
  simp only [Scalars.parseString, Scalars.cookedString, Literal.cooked, Escape.decode_quoted]

end GraphQL
