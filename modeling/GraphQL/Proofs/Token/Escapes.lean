import Mathlib.Algebra.Group.Nat.Defs
import Mathlib.Data.List.Induction
import GraphQL.Proofs.Text.WellFormed
import GraphQL.Proofs.Token.Separators

/-! What quoted strings denote. The body of a quoted string is a sequence of items, each of which is
a character that stands for itself or an escape that denotes one. The lexer takes exactly such
bodies, and they decode to the characters that their items denote. -/

namespace GraphQL

open Utf8 (Spells)

namespace Escape

/-- A hexadecimal digit and what it counts for. -/
inductive Digit : UInt8 → Nat → Prop
  | decimal {d : Nat} : d < 10 → Digit (UInt8.ofNat (0x30 + d)) d
  | small {d : Nat} : d < 6 → Digit (UInt8.ofNat (0x61 + d)) (10 + d)
  | capital {d : Nat} : d < 6 → Digit (UInt8.ofNat (0x41 + d)) (10 + d)

/-- Hexadecimal digits and the number they write. -/
inductive Numeral : Text → Nat → Prop
  | nil : Numeral [] 0
  | snoc {digits : Text} {b : UInt8} {n d : Nat} :
      Numeral digits n → Digit b d → Numeral (digits ++ [b]) (n * 16 + d)

/-- The letters that denote a character after a backslash. -/
def letters : List (UInt8 × Char) :=
  [(0x22, '"'), (0x5C, '\\'), (0x2F, '/'), (0x62, '\x08'), (0x66, '\x0C'), (0x6E, '\n'),
    (0x72, '\r'), (0x74, '\t')]

/-- One item of a quoted string and the character it denotes. Digits denote the character whose code
they write, so that is no surrogate; two surrogates denote a character together. -/
inductive Item : Text → Char → Prop
  | plain {c : Char} : c ≠ '"' → c ≠ '\\' → c = '\t' ∨ ' ' ≤ c → Item (String.utf8EncodeChar c) c
  | letter {b : UInt8} {c : Char} : (b, c) ∈ letters → Item [0x5C, b] c
  | unit {digits : Text} {c : Char} :
      digits.length = 4 → Numeral digits c.toNat → Item (lit "\\u" ++ digits) c
  | pair {first second : Text} {high low : Nat} {c : Char} :
      first.length = 4 → Numeral first high → 0xD800 ≤ high → high ≤ 0xDBFF →
      second.length = 4 → Numeral second low → 0xDC00 ≤ low → low ≤ 0xDFFF →
      c.toNat = 0x10000 + (high - 0xD800) * 0x400 + (low - 0xDC00) →
      Item (lit "\\u" ++ first ++ (lit "\\u" ++ second)) c
  | braced {digits : Text} {c : Char} :
      1 ≤ digits.length → digits.length ≤ 8 → Numeral digits c.toNat →
      Item (lit "\\u\x7b" ++ (digits ++ lit "\x7d")) c

/-- The body of a quoted string and the characters that its items denote. -/
inductive Denotes : Text → List Char → Prop
  | nil : Denotes [] []
  | cons {item body : Text} {c : Char} {cs : List Char} :
      Item item c → Denotes body cs → Denotes (item ++ body) (c :: cs)

variable {digits rest : Text} {n : Nat}

/-! ### Hexadecimal digits -/

theorem isHexDigit_iff {c : Nat} : CharClass.isHexDigit c = true ↔
    (0x30 ≤ c ∧ c ≤ 0x39) ∨ (0x61 ≤ c ∧ c ≤ 0x66) ∨ (0x41 ≤ c ∧ c ≤ 0x46) := by
  simp only [CharClass.isHexDigit, CharClass.isDigit, Bool.or_eq_true, Bool.and_eq_true,
    decide_eq_true_eq]
  omega

theorem isHexDigit_lt {c : Nat} (h : CharClass.isHexDigit c = true) : c < 0x80 := by
  rw [isHexDigit_iff] at h
  omega

theorem hexDigit_eq (c : Nat) : hexDigit c =
    if 0x30 ≤ c ∧ c ≤ 0x39 then c - 0x30 else if 0x61 ≤ c then c - 0x57 else c - 0x37 := by
  simp only [hexDigit, CharClass.isDigit, Bool.and_eq_true, decide_eq_true_eq]

theorem hexDigit_lt {c : Nat} (h : CharClass.isHexDigit c = true) : hexDigit c < 16 := by
  rw [isHexDigit_iff] at h
  rw [hexDigit_eq]
  split_ifs <;> omega

theorem digit_iff {b : UInt8} {d : Nat} :
    Digit b d ↔ CharClass.isHexDigit b.toNat = true ∧ hexDigit b.toNat = d := by
  rw [isHexDigit_iff, hexDigit_eq]
  constructor
  · intro h
    cases h with
    | decimal hd =>
      rw [Utf8.toNat_byte (by omega)]
      split_ifs <;> omega
    | small hd =>
      rw [Utf8.toNat_byte (by omega)]
      split_ifs <;> omega
    | capital hd =>
      rw [Utf8.toNat_byte (by omega)]
      split_ifs <;> omega
  · rintro ⟨hdecimal | hsmall | hcapital, rfl⟩
    · rw [if_pos hdecimal]
      have h := Digit.decimal (d := b.toNat - 0x30) (by omega)
      rwa [Utf8.ofNat_eq_of_toNat (b := b) (by omega)] at h
    · rw [if_neg (by omega), if_pos hsmall.1]
      have h := Digit.small (d := b.toNat - 0x61) (by omega)
      rwa [Utf8.ofNat_eq_of_toNat (b := b) (by omega),
        show 10 + (b.toNat - 0x61) = b.toNat - 0x57 by omega] at h
    · rw [if_neg (by omega), if_neg (by omega)]
      have h := Digit.capital (d := b.toNat - 0x41) (by omega)
      rwa [Utf8.ofNat_eq_of_toNat (b := b) (by omega),
        show 10 + (b.toNat - 0x41) = b.toNat - 0x37 by omega] at h

theorem hexValue_append (ds : List Nat) (c : Nat) :
    hexValue (ds ++ [c]) = hexValue ds * 16 + hexDigit c := by
  rw [hexValue, List.foldl_append]
  rfl

theorem hexValue_lt {ds : List Nat} (h : Lexer.IsHex ds) : hexValue ds < 16 ^ ds.length := by
  induction ds using List.reverseRecOn with
  | nil => exact Nat.one_pos
  | append_singleton ds c ih =>
    have hds := ih fun d hd => h d (List.mem_append_left _ hd)
    have hc := hexDigit_lt (h c (List.mem_append_right _ (List.mem_singleton_self c)))
    rw [hexValue_append, List.length_append, List.length_singleton, Nat.pow_succ]
    omega

theorem codes_ofNat {ds : List Nat} (h : ∀ c ∈ ds, c < 0x80) :
    codes (ds.map UInt8.ofNat) = ds := by
  rw [codes, List.map_map]
  refine (List.map_congr_left fun c hc => ?_).trans (List.map_id ds)
  exact Utf8.toNat_byte (by have := h c hc; omega)

theorem ascii_ofNat {ds : List Nat} (h : ∀ c ∈ ds, c < 0x80) :
    ∀ b ∈ ds.map UInt8.ofNat, b.toNat < 0x80 := by
  intro b hb
  obtain ⟨c, hc, rfl⟩ := List.mem_map.mp hb
  have hlt := h c hc
  rwa [Utf8.toNat_byte (by omega)]

theorem codes_hex {ds : List Nat} (h : Lexer.IsHex ds) : codes (ds.map UInt8.ofNat) = ds :=
  codes_ofNat fun c hc => isHexDigit_lt (h c hc)

theorem map_ofNat_codes (t : Text) : (codes t).map UInt8.ofNat = t := by
  rw [codes, List.map_map]
  exact (List.map_congr_left fun b _ => UInt8.ofNat_toNat).trans (List.map_id t)

/-- Digits write the number that they are read as. -/
theorem numeral_iff :
    Numeral digits n ↔ Lexer.IsHex (codes digits) ∧ hexValue (codes digits) = n := by
  -- Numbers are read from the left, so that the last digit is the one to take off.
  constructor
  · intro h
    induction h with
    | nil => exact ⟨List.forall_mem_nil _, rfl⟩
    | snoc _ hd ih =>
      obtain ⟨hhex, rfl⟩ := ih
      obtain ⟨hdigit, rfl⟩ := digit_iff.mp hd
      rw [codes, List.map_append]
      constructor
      · exact List.forall_mem_append.mpr ⟨hhex, List.forall_mem_singleton.mpr hdigit⟩
      · exact hexValue_append _ _
  · rintro ⟨hhex, rfl⟩
    induction digits using List.reverseRecOn with
    | nil => exact .nil
    | append_singleton digits b ih =>
      rw [codes, List.map_append, List.map_singleton] at hhex ⊢
      obtain ⟨hdigits, hb⟩ := List.forall_mem_append.mp hhex
      have hdigit := digit_iff.mpr ⟨hb b.toNat (List.mem_singleton_self _), rfl⟩
      have hvalue := hexValue_append (codes digits) b.toNat
      rw [← codes, hvalue]
      exact .snoc (ih hdigits) hdigit

theorem numeral_map {ds : List Nat} (h : Lexer.IsHex ds) :
    Numeral (ds.map UInt8.ofNat) (hexValue ds) := by
  rw [numeral_iff, codes_hex h]
  exact ⟨h, rfl⟩

/-! ### One escape -/

/-- The characters outside the basic plane are those that surrogate pairs stand for. -/
theorem isScalarValue_joinSurrogates {high low : Nat} (hhigh : Utf8.isHighSurrogate high = true)
    (hlow : Utf8.isLowSurrogate low = true) :
    Utf8.isScalarValue (joinSurrogates high low) = true := by
  rw [Utf8.isHighSurrogate_iff] at hhigh
  rw [Utf8.isLowSurrogate_iff] at hlow
  refine Utf8.isScalarValue_iff.mpr ?_
  unfold joinSurrogates
  omega

/-- A trailing surrogate is written with four digits. -/
theorem trailing?_eq_some_iff {tail : List Nat} {low : Nat} : trailing? tail = some low ↔
    ∃ ds, tail = 0x5C :: 0x75 :: ds ∧ ds.length = 4 ∧ Lexer.IsHex ds ∧ hexValue ds = low ∧
      Utf8.isLowSurrogate low = true := by
  constructor
  · intro h
    unfold trailing? at h
    split at h
    · dsimp only at h
      split_ifs at h with hlow
      cases h
      rw [Bool.and_eq_true] at hlow
      exact ⟨_, rfl, rfl, Lexer.isHexDigit_of_isHex.mpr hlow.1, rfl, hlow.2⟩
    · cases h
  · rintro ⟨ds, rfl, hlen, hhex, rfl, hlow⟩
    obtain ⟨a, b, c, d, rfl⟩ : ∃ a b c d, ds = [a, b, c, d] := by
      match ds, hlen with
      | [a, b, c, d], _ => exact ⟨a, b, c, d, rfl⟩
    rw [trailing?, Lexer.isHexDigit_of_isHex.mp hhex, hlow]
    rfl

theorem letter_of_simple? {c d : Nat} (h : simple? c = some d) :
    (UInt8.ofNat c, Char.ofNat d) ∈ letters := by
  unfold simple? at h
  split at h
  all_goals
    cases h
  all_goals decide

theorem simple?_of_letter {b : UInt8} {c : Char} (h : (b, c) ∈ letters) :
    simple? b.toNat = some c.toNat := by
  have hall : ∀ l ∈ letters, simple? l.1.toNat = some l.2.toNat := by decide
  exact hall _ h

theorem sequence_letter {b : UInt8} {c : Char} (h : (b, c) ∈ letters) (rest : Text) :
    sequence (b :: rest) = .ok (Utf8.encode c.toNat, 1) := by
  simp only [sequence, simple?_of_letter h]

theorem head?_hex {ds : List Nat} (h : Lexer.IsHex ds) (hlen : ds.length = 4) (rest : Text) :
    (ds.map UInt8.ofNat ++ rest).head? ≠ some 0x7B := by
  cases ds with
  | nil => cases hlen
  | cons c ds =>
    have hc := h c List.mem_cons_self
    rw [List.map_cons, List.cons_append, List.head?_cons, ne_eq, Option.some.injEq,
      ← UInt8.toNat_inj, Utf8.toNat_byte (by have := isHexDigit_lt hc; omega)]
    rintro rfl
    cases hc

/-- Four hexadecimal digits after a backslash and a `u`. -/
theorem sequence_digits {ds : List Nat} (hlen : ds.length = 4) (hhex : Lexer.IsHex ds)
    (rest : Text) : sequence (0x75 :: (ds.map UInt8.ofNat ++ rest)) =
      if Utf8.isHighSurrogate (hexValue ds) then
        match trailing? (codes (rest.take 6)) with
        | some low => .ok (Utf8.encode (joinSurrogates (hexValue ds) low), 11)
        | none => .error (lit "\\u" ++ ds.map UInt8.ofNat)
      else .ok (Utf8.encode (hexValue ds), 5) := by
  have hlen' : (ds.map UInt8.ofNat).length = 4 := by rw [List.length_map, hlen]
  have hbrace : ((ds.map UInt8.ofNat ++ rest).head? == some 0x7B) = false :=
    beq_eq_false_iff_ne.mpr (head?_hex hhex hlen rest)
  have hgood : ((ds.map UInt8.ofNat).length != 4 || !ds.all CharClass.isHexDigit) = false := by
    rw [hlen', Lexer.isHexDigit_of_isHex.mp hhex]
    rfl
  have hsimple : simple? (0x75 : UInt8).toNat = none := rfl
  have hu : ((0x75 : UInt8) != Text.byte 'u') = false := rfl
  cases htrailing : trailing? (codes (rest.take 6)) with
  | none =>
    simp only [sequence, hsimple, hu, hbrace, List.take_left' hlen', List.drop_left' hlen',
      codes_hex hhex, hgood, htrailing, Bool.false_eq_true, if_false]
  | some low =>
    simp only [sequence, hsimple, hu, hbrace, List.take_left' hlen', List.drop_left' hlen',
      codes_hex hhex, hgood, htrailing, Bool.false_eq_true, if_false]

/-- Hexadecimal digits in braces after a backslash and a `u`. -/
theorem sequence_braced {ds : List Nat} (hne : ds ≠ []) (hlen : ds.length ≤ 8)
    (hhex : Lexer.IsHex ds) (rest : Text) :
    sequence (0x75 :: 0x7B :: (ds.map UInt8.ofNat ++ 0x7D :: rest)) =
      .ok (Utf8.encode (hexValue ds), ds.length + 3) := by
  have hdigits : ∀ b ∈ ds.map UInt8.ofNat, (b != 0x7D) = true := by
    intro b hb
    obtain ⟨c, hc, rfl⟩ := List.mem_map.mp hb
    have hc' := hhex c hc
    rw [bne_iff_ne, ne_eq, ← UInt8.toNat_inj,
      Utf8.toNat_byte (by have := isHexDigit_lt hc'; omega)]
    rintro rfl
    cases hc'
  have htake : (ds.map UInt8.ofNat ++ 0x7D :: rest).takeWhile (· != 0x7D) = ds.map UInt8.ofNat := by
    rw [List.takeWhile_append_of_pos hdigits]
    simp
  have hclosed : ((ds.map UInt8.ofNat).length ==
      (ds.map UInt8.ofNat ++ 0x7D :: rest).length) = false := by
    rw [beq_eq_false_iff_ne, List.length_append, List.length_cons]
    omega
  have hgood : ((ds.map UInt8.ofNat).isEmpty || decide (8 < (ds.map UInt8.ofNat).length) ||
      !ds.all CharClass.isHexDigit) = false := by
    rw [Lexer.isHexDigit_of_isHex.mp hhex, List.length_map, List.isEmpty_eq_false_iff.mpr
      (mt List.map_eq_nil_iff.mp hne), decide_eq_false (Nat.not_lt.mpr hlen)]
    rfl
  have hsimple : simple? (0x75 : UInt8).toNat = none := rfl
  have hu : ((0x75 : UInt8) != Text.byte 'u') = false := rfl
  have hbrace : (some (0x7B : UInt8) == some 0x7B) = true := rfl
  simp only [sequence, hsimple, hu, List.head?_cons, hbrace, List.drop_succ_cons, List.drop_zero,
    htake, hclosed, codes_hex hhex, hgood, Bool.false_eq_true, if_false, if_true]
  rw [List.length_map]

/-- To the lexer an escape, and to the decoder the character with this code. -/
structure Reads (seq : List Nat) (c : Nat) : Prop where
  isEscape : Lexer.IsEscape seq
  sequence : ∀ rest, sequence (seq.map UInt8.ofNat ++ rest) = .ok (Utf8.encode c, seq.length)

theorem reads_letter {b : UInt8} {c : Char} (h : (b, c) ∈ letters) : Reads [b.toNat] c.toNat := by
  constructor
  · have hsome : (simple? b.toNat).isSome = true := by
      rw [simple?_of_letter h]
      rfl
    exact .simple hsome
  · intro rest
    rw [List.map_singleton, UInt8.ofNat_toNat]
    exact sequence_letter h rest

theorem reads_unit {ds : List Nat} (hlen : ds.length = 4) (hhex : Lexer.IsHex ds)
    (hs : Utf8.isSurrogate (hexValue ds) = false) : Reads (0x75 :: ds) (hexValue ds) := by
  constructor
  · exact .unicode (.unit hlen hhex hs)
  · intro rest
    have hhigh : Utf8.isHighSurrogate (hexValue ds) = false := (Bool.or_eq_false_iff.mp hs).1
    rw [List.map_cons, List.cons_append]
    refine (sequence_digits hlen hhex rest).trans ?_
    rw [hhigh, List.length_cons, hlen]
    rfl

theorem reads_pair {ds more : List Nat} (hlen : ds.length = 4) (hhex : Lexer.IsHex ds)
    (hhigh : Utf8.isHighSurrogate (hexValue ds) = true) (hlen' : more.length = 4)
    (hhex' : Lexer.IsHex more) (hlow : Utf8.isLowSurrogate (hexValue more) = true) :
    Reads (0x75 :: (ds ++ 0x5C :: 0x75 :: more)) (joinSurrogates (hexValue ds) (hexValue more)) := by
  have htrailing : trailing? (0x5C :: 0x75 :: more) = some (hexValue more) :=
    trailing?_eq_some_iff.mpr ⟨more, rfl, hlen', hhex', rfl, hlow⟩
  constructor
  · exact .unicode (.pair hlen hhex hhigh htrailing)
  · intro rest
    have hsix : ((0x5C :: 0x75 :: more).map UInt8.ofNat).length = 6 := by
      rw [List.length_map, List.length_cons, List.length_cons, hlen']
    have htail : codes ((0x5C :: 0x75 :: more).map UInt8.ofNat) = 0x5C :: 0x75 :: more := by
      rw [List.map_cons, List.map_cons, codes, List.map_cons, List.map_cons, ← codes,
        codes_hex hhex']
      rfl
    rw [List.map_cons, List.map_append, List.cons_append, List.append_assoc]
    refine (sequence_digits hlen hhex _).trans ?_
    rw [if_pos hhigh, List.take_left' hsix, htail, htrailing, List.length_cons,
      List.length_append, hlen, List.length_cons, List.length_cons, hlen']

theorem reads_braced {ds : List Nat} (hne : ds ≠ []) (hlen : ds.length ≤ 8)
    (hhex : Lexer.IsHex ds) (hscalar : Utf8.isScalarValue (hexValue ds) = true) :
    Reads (0x75 :: 0x7B :: (ds ++ [0x7D])) (hexValue ds) := by
  constructor
  · exact .unicode (.braced hne hlen hhex hscalar)
  · intro rest
    rw [List.map_cons, List.map_cons, List.map_append, List.cons_append, List.cons_append,
      List.append_assoc]
    refine (sequence_braced hne hlen hhex rest).trans ?_
    rw [List.length_cons, List.length_cons, List.length_append]
    rfl

/-- What the lexer takes for an escape is an item. -/
theorem exists_item_of_isEscape {seq : List Nat} (h : Lexer.IsEscape seq) :
    ∃ c, Item (0x5C :: seq.map UInt8.ofNat) c := by
  cases h with
  | simple hc =>
    obtain ⟨d, hd⟩ := Option.isSome_iff_exists.mp hc
    exact ⟨_, .letter (letter_of_simple? hd)⟩
  | @unicode ds hseq =>
    cases hseq with
    | unit hlen hhex hs =>
      have hlt := hexValue_lt hhex
      rw [hlen] at hlt
      have hscalar : Utf8.isScalarValue (hexValue ds) = true := by
        rw [Utf8.isScalarValue, hs, Bool.and_eq_true, decide_eq_true_eq]
        exact ⟨by omega, rfl⟩
      have hdigits := numeral_map hhex
      rw [← Utf8.toNat_ofNat hscalar] at hdigits
      exact ⟨_, .unit (by rw [List.length_map, hlen]) hdigits⟩
    | @pair ds tail low hlen hhex hhigh htail =>
      obtain ⟨more, rfl, hmore, hmorehex, rfl, hlow⟩ := trailing?_eq_some_iff.mp htail
      have hcode := Utf8.toNat_ofNat (isScalarValue_joinSurrogates hhigh hlow)
      have hhigh' := Utf8.isHighSurrogate_iff.mp hhigh
      have hlow' := Utf8.isLowSurrogate_iff.mp hlow
      have hitem := Item.pair (by rw [List.length_map, hlen]) (numeral_map hhex) hhigh'.1 hhigh'.2
        (by rw [List.length_map, hmore]) (numeral_map hmorehex) hlow'.1 hlow'.2 hcode
      rw [List.map_cons, List.map_append]
      exact ⟨_, hitem⟩
    | @braced ds hne hlen hhex hscalar =>
      have hdigits := numeral_map hhex
      rw [← Utf8.toNat_ofNat hscalar] at hdigits
      have hitem := Item.braced (by
        rw [List.length_map]
        exact List.length_pos_iff.mpr hne) (by rwa [List.length_map]) hdigits
      rw [List.map_cons, List.map_cons, List.map_append]
      exact ⟨_, hitem⟩

/-- Characters that stand for themselves. -/
theorem isQuotedChar_toNat {c : Char} :
    Lexer.isQuotedChar c.toNat = true ↔ c ≠ '"' ∧ c ≠ '\\' ∧ (c = '\t' ∨ ' ' ≤ c) := by
  have hmax := (Utf8.isScalarValue_iff.mp (Utf8.isScalarValue_toNat c)).1
  have hspace : ' ' ≤ c ↔ 0x20 ≤ c.toNat := UInt32.le_iff_toNat_le
  have hquote : c = '"' ↔ c.toNat = 0x22 := Char.toNat_inj.symm
  have hback : c = '\\' ↔ c.toNat = 0x5C := Char.toNat_inj.symm
  have htab : c = '\t' ↔ c.toNat = 0x09 := Char.toNat_inj.symm
  rw [ne_eq, ne_eq, hspace, hquote, hback, htab]
  simp only [Lexer.isQuotedChar, CharClass.isSource, CharClass.isLineTerminator, Utf8.malformed,
    Bool.and_eq_true, Bool.or_eq_true, Bool.not_eq_true', Bool.or_eq_false_iff, beq_iff_eq,
    bne_iff_ne, beq_eq_false_iff_ne, decide_eq_true_eq]
  omega

/-- An item is a character of its own, or it is read as the character that it denotes. -/
theorem Item.plain_or_escape {item : Text} {c : Char} (h : Item item c) :
    (item = Utf8.encode c.toNat ∧ Lexer.isQuotedChar c.toNat = true) ∨
      ∃ seq, item = 0x5C :: seq.map UInt8.ofNat ∧ Reads seq c.toNat := by
  have hscalar := Utf8.isScalarValue_toNat c
  cases h with
  | plain hquote hback hchar =>
    left
    exact ⟨Utf8.utf8EncodeChar_eq c, isQuotedChar_toNat.mpr ⟨hquote, hback, hchar⟩⟩
  | @letter b c hb =>
    right
    have hbyte : [b] = [b.toNat].map UInt8.ofNat := by rw [List.map_singleton, UInt8.ofNat_toNat]
    exact ⟨_, congrArg _ hbyte, reads_letter hb⟩
  | @unit digits c hlen hdigits =>
    right
    obtain ⟨hhex, hcode⟩ := numeral_iff.mp hdigits
    rw [← map_ofNat_codes digits, List.length_map] at hlen
    rw [← hcode] at hscalar ⊢
    have hs : Utf8.isSurrogate (hexValue (codes digits)) = false := by
      rw [Utf8.isScalarValue, Bool.and_eq_true, Bool.not_eq_true'] at hscalar
      exact hscalar.2
    refine ⟨_, ?_, reads_unit hlen hhex hs⟩
    rw [List.map_cons, map_ofNat_codes]
    rfl
  | @pair first second high low c hlen hfirst hhigh hhigh' hlen' hsecond hlow hlow' hcode =>
    right
    obtain ⟨hhex, rfl⟩ := numeral_iff.mp hfirst
    obtain ⟨hhex', rfl⟩ := numeral_iff.mp hsecond
    rw [← map_ofNat_codes first, List.length_map] at hlen
    rw [← map_ofNat_codes second, List.length_map] at hlen'
    have hreads := reads_pair hlen hhex (Utf8.isHighSurrogate_iff.mpr ⟨hhigh, hhigh'⟩) hlen' hhex'
      (Utf8.isLowSurrogate_iff.mpr ⟨hlow, hlow'⟩)
    rw [hcode]
    refine ⟨_, ?_, hreads⟩
    rw [List.map_cons, List.map_append, List.map_cons, List.map_cons, map_ofNat_codes,
      map_ofNat_codes]
    rfl
  | @braced digits c hpos hle hdigits =>
    right
    obtain ⟨hhex, hcode⟩ := numeral_iff.mp hdigits
    rw [← map_ofNat_codes digits, List.length_map] at hpos hle
    rw [← hcode] at hscalar ⊢
    refine ⟨_, ?_, reads_braced (List.length_pos_iff.mp hpos) hle hhex hscalar⟩
    rw [List.map_cons, List.map_cons, List.map_append, map_ofNat_codes]
    rfl

/-! ### Bodies -/

theorem decodeFrom_append {skipped : Text} (rest : Text) :
    decodeFrom skipped.length (skipped ++ rest) = decodeFrom 0 rest := by
  induction skipped with
  | nil => rfl
  | cons b skipped ih => exact ih

/-- Bytes that are no backslash stand for themselves. -/
theorem decodeFrom_plain {t : Text} (ht : ∀ b ∈ t, b ≠ 0x5C) (rest : Text) :
    decodeFrom 0 (t ++ rest) = (t ++ ·) <$> decodeFrom 0 rest := by
  induction t with
  | nil => cases h : decodeFrom 0 rest <;> simp [h, Functor.map, Except.map]
  | cons b t ih =>
    obtain ⟨hb, ht⟩ := List.forall_mem_cons.mp ht
    have hchar : (b == Text.byte '\\') = false := beq_eq_false_iff_ne.mpr hb
    rw [List.cons_append, decodeFrom, hchar, if_neg Bool.false_ne_true, ih ht]
    cases decodeFrom 0 rest <;> rfl

/-- No byte of a character that stands for itself is a backslash. -/
theorem ne_backslash_of_mem_encode {c : Nat} (hc : Lexer.isQuotedChar c = true) :
    ∀ b ∈ Utf8.encode c, b ≠ 0x5C := by
  rw [Lexer.isQuotedChar, Bool.and_eq_true, bne_iff_ne] at hc
  by_cases hascii : c < 0x80
  · rw [Utf8.encode_ascii hascii, List.forall_mem_singleton, ne_eq, ← UInt8.toNat_inj,
      Utf8.toNat_byte (by omega)]
    exact hc.2
  · exact Utf8.ne_of_mem_encode (Nat.le_of_not_lt hascii) (by decide)

theorem decodeFrom_item {item : Text} {c : Char} (h : Item item c) (rest : Text) :
    decodeFrom 0 (item ++ rest) = (Utf8.encode c.toNat ++ ·) <$> decodeFrom 0 rest := by
  rcases h.plain_or_escape with ⟨rfl, hc⟩ | ⟨seq, rfl, hseq⟩
  · exact decodeFrom_plain (ne_backslash_of_mem_encode hc) rest
  · have hback : ((0x5C : UInt8) == Text.byte '\\') = true := rfl
    have hlen : seq.length = (seq.map UInt8.ofNat).length := List.length_map _ |>.symm
    rw [List.cons_append, decodeFrom, hback, if_pos rfl, hseq.sequence rest, hlen]
    simp only [decodeFrom_append]

/-- A body decodes to the characters that its items denote. -/
theorem Denotes.decode {body : Text} {cs : List Char} (h : Denotes body cs) :
    Escape.decode body = .ok (cs.flatMap String.utf8EncodeChar) := by
  induction h with
  | nil => rfl
  | @cons item body c cs hitem _ ih =>
    rw [Escape.decode, decodeFrom_item hitem, ← Escape.decode, ih, List.flatMap_cons,
      Utf8.utf8EncodeChar_eq]
    rfl

end Escape

namespace Lexer

open Source (bytes)

variable {as : List SourceChar}

theorem ascii_of_simple? {c : Nat} (h : (Escape.simple? c).isSome = true) : c < 0x80 := by
  obtain ⟨d, hd⟩ := Option.isSome_iff_exists.mp h
  unfold Escape.simple? at hd
  split at hd
  all_goals
    cases hd
  all_goals decide

theorem IsHex.ascii {ds : List Nat} (h : IsHex ds) : ∀ c ∈ ds, c < 0x80 :=
  fun c hc => Escape.isHexDigit_lt (h c hc)

theorem IsUnicodeEscape.ascii {seq : List Nat} (h : IsUnicodeEscape seq) : ∀ c ∈ seq, c < 0x80 := by
  cases h with
  | unit _ hhex => exact hhex.ascii
  | pair _ hhex _ htail =>
    obtain ⟨more, rfl, -, hmore, -⟩ := Escape.trailing?_eq_some_iff.mp htail
    rw [List.forall_mem_append, List.forall_mem_cons, List.forall_mem_cons]
    exact ⟨hhex.ascii, by decide, by decide, hmore.ascii⟩
  | braced _ _ hhex =>
    rw [List.forall_mem_cons, List.forall_mem_append]
    exact ⟨by decide, hhex.ascii, by decide⟩

/-- Escapes are written in ASCII. -/
theorem IsEscape.ascii {seq : List Nat} (h : IsEscape seq) : ∀ c ∈ seq, c < 0x80 := by
  cases h with
  | simple hc => exact List.forall_mem_singleton.mpr (ascii_of_simple? hc)
  | unicode hseq => exact List.forall_mem_cons.mpr ⟨by decide, hseq.ascii⟩

/-- A character that a source may hold in a string is well-formed. -/
theorem encode_of_isSource {c : SourceChar} (hc : c.Faithful)
    (hsource : CharClass.isSource c.code = true) :
    Utf8.isScalarValue c.code = true ∧ c.bytes = Utf8.encode c.code := by
  rcases hc with hc | ⟨hc, -⟩
  · exact hc
  · rw [hc] at hsource
    cases hsource

/-- The characters of ASCII are its bytes. -/
theorem codes_plain_append {t : Text} (ht : ∀ b ∈ t, b.toNat < 0x80) (rest : Text) :
    codes (Source.plain (t ++ rest)) = Escape.codes t ++ codes (Source.plain rest) := by
  rw [Source.plain_append_ascii ht, codes_append]
  congr 1
  exact List.map_map

/-- The lexer takes what is a sequence of items. -/
theorem isQuoted_of_denotes {body : Text} {cs : List Char} (h : Escape.Denotes body cs) :
    IsQuoted (codes (Source.plain body)) := by
  induction h with
  | nil => exact .nil
  | @cons item body c cs hitem _ ih =>
    rcases hitem.plain_or_escape with ⟨rfl, hc⟩ | ⟨seq, rfl, hseq⟩
    · rw [Source.plain_encode (Utf8.isScalarValue_toNat c)]
      exact .char hc ih
    · have hascii : ∀ d ∈ 0x5C :: seq, d < 0x80 :=
        List.forall_mem_cons.mpr ⟨by decide, hseq.isEscape.ascii⟩
      have hread := codes_plain_append (Escape.ascii_ofNat hascii) body
      rw [Escape.codes_ofNat hascii, List.cons_append] at hread
      change IsQuoted (codes (Source.plain ((0x5C :: seq).map UInt8.ofNat ++ body)))
      rw [hread]
      exact .escape hseq.isEscape ih

/-- Whatever the lexer takes is a sequence of items. -/
theorem IsQuoted.exists_denotes (h : IsQuoted (codes as)) (has : ∀ c ∈ as, c.Faithful) :
    ∃ cs, Escape.Denotes (bytes as) cs := by
  -- The lexer goes by codes; each character or escape that it takes is turned back into its bytes.
  generalize hcodes : codes as = body at h
  induction h generalizing as with
  | nil =>
    obtain rfl := codes_eq_nil_iff.mp hcodes
    exact ⟨[], .nil⟩
  | char hchar _ ih =>
    obtain ⟨c, as, rfl, rfl, hbody⟩ := List.map_eq_cons_iff.mp hcodes
    obtain ⟨hc, has⟩ := List.forall_mem_cons.mp has
    obtain ⟨cs, hcs⟩ := ih has hbody
    have hsource := hchar
    simp only [isQuotedChar, Bool.and_eq_true] at hsource
    obtain ⟨hscalar, hbytes⟩ := encode_of_isSource hc hsource.1.1.1
    have hcode := Utf8.toNat_ofNat hscalar
    rw [← hcode] at hchar hbytes
    obtain ⟨hquote, hback, hclass⟩ := Escape.isQuotedChar_toNat.mp hchar
    rw [Source.bytes_cons, hbytes, ← Utf8.utf8EncodeChar_eq]
    exact ⟨_, .cons (.plain hquote hback hclass) hcs⟩
  | @escape seq body hseq _ ih =>
    obtain ⟨c, _, rfl, hc, hmore⟩ := List.map_eq_cons_iff.mp hcodes
    obtain ⟨escape, as, rfl, hescape, hbody⟩ := List.map_eq_append_iff.mp hmore
    obtain ⟨hback, has⟩ := List.forall_mem_cons.mp has
    obtain ⟨hfaithful, has⟩ := List.forall_mem_append.mp has
    obtain ⟨cs, hcs⟩ := ih has hbody
    obtain ⟨d, hitem⟩ := Escape.exists_item_of_isEscape hseq
    have hbackslash : c.bytes = [0x5C] := by
      rw [hback.bytes_ascii (by rw [hc]; decide), hc]
      rfl
    have hbytes : bytes escape = seq.map UInt8.ofNat := bytes_of_codes hfaithful hescape hseq.ascii
    rw [Source.bytes_cons, Source.bytes_append, hbackslash, hbytes, ← List.append_assoc]
    exact ⟨_, .cons hitem hcs⟩

end Lexer

end GraphQL
