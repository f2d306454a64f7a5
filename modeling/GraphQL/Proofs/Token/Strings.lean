import GraphQL.Proofs.Token.Numbers

/-! Strings as the lexer reads them: which characters make up the body of a quoted and of a block
string. The scanners of strings count how many characters of an escape are still to come; here a
body is a sequence of characters and whole escapes. -/

namespace GraphQL.Lexer

variable {cs as rest : List SourceChar} {n : Nat}

/-- Hexadecimal digits. -/
def IsHex (ds : List Nat) : Prop := ∀ c ∈ ds, CharClass.isHexDigit c = true

/-- What may stand after a backslash and a `u`: four digits of a character, two times four of a
surrogate pair, or up to eight in braces. -/
inductive IsUnicodeEscape : List Nat → Prop
  | unit {ds : List Nat} : ds.length = 4 → IsHex ds →
      Utf8.isSurrogate (Escape.hexValue ds) = false → IsUnicodeEscape ds
  | pair {ds tail : List Nat} {low : Nat} : ds.length = 4 → IsHex ds →
      Utf8.isHighSurrogate (Escape.hexValue ds) = true → Escape.trailing? tail = some low →
      IsUnicodeEscape (ds ++ tail)
  | braced {ds : List Nat} : ds ≠ [] → ds.length ≤ 8 → IsHex ds →
      Utf8.isScalarValue (Escape.hexValue ds) = true → IsUnicodeEscape (0x7B :: (ds ++ [0x7D]))

/-- What may stand after a backslash in a quoted string. -/
inductive IsEscape : List Nat → Prop
  | simple {c : Nat} : (Escape.simple? c).isSome = true → IsEscape [c]
  | unicode {seq : List Nat} : IsUnicodeEscape seq → IsEscape (0x75 :: seq)

/-- Characters of a quoted string that stand for themselves. -/
def isQuotedChar (c : Nat) : Bool :=
  CharClass.isSource c && !CharClass.isLineTerminator c && c != 0x22 && c != 0x5C

/-- The body of a quoted string. -/
inductive IsQuoted : List Nat → Prop
  | nil : IsQuoted []
  | char {c : Nat} {body : List Nat} : isQuotedChar c = true → IsQuoted body → IsQuoted (c :: body)
  | escape {seq body : List Nat} : IsEscape seq → IsQuoted body → IsQuoted (0x5C :: (seq ++ body))

theorem bracedDigits_eq_ok_iff {start acc : List SourceChar} {room : Nat} :
    bracedDigits start room acc cs = .ok (as, rest) ↔
      ∃ ds brace, as = acc ++ ds ∧ cs = ds ++ brace :: rest ∧ brace.code = 0x7D ∧
        ds.length ≤ room ∧ IsHex (codes ds) := by
  induction cs generalizing room acc with
  | nil => simp [bracedDigits, failAt]
  | cons c cs ih =>
    by_cases hc : c.code = 0x7D
    · have hclose : bracedDigits start room acc (c :: cs) = .ok (acc, cs) := by
        cases room <;> simp [bracedDigits, SourceChar.isChar, hc]
      rw [hclose, Except.ok.injEq, Prod.mk.injEq]
      refine ⟨?_, ?_⟩
      · rintro ⟨rfl, rfl⟩
        exact ⟨[], c, by simp, rfl, hc, Nat.zero_le _, List.forall_mem_nil _⟩
      · rintro ⟨ds, brace, rfl, h, -, -, hhex⟩
        cases ds with
        | nil =>
          cases h
          exact ⟨(List.append_nil _).symm, rfl⟩
        | cons d ds =>
          cases h
          have hdigit : CharClass.isHexDigit c.code = true := hhex _ List.mem_cons_self
          rw [hc] at hdigit
          cases hdigit
    · have hopen : c.isChar '}' = false := by simpa [SourceChar.isChar] using hc
      have hsplit : ∀ (ds : List SourceChar) (brace : SourceChar), brace.code = 0x7D →
          c :: cs = ds ++ brace :: rest → ∃ ds', ds = c :: ds' ∧ cs = ds' ++ brace :: rest := by
        intro ds brace hbrace h
        cases ds with
        | nil =>
          cases h
          exact absurd hbrace hc
        | cons d ds =>
          cases h
          exact ⟨ds, rfl, rfl⟩
      cases room with
      | zero =>
        simp only [bracedDigits, hopen, Bool.false_eq_true, if_false, reduceCtorEq, false_iff]
        rintro ⟨ds, brace, -, h, hbrace, hlen, -⟩
        obtain ⟨ds, rfl, -⟩ := hsplit ds brace hbrace h
        cases hlen
      | succ room =>
        by_cases hd : CharClass.isHexDigit c.code = true
        · simp only [bracedDigits, hopen, hd, Bool.false_eq_true, if_false, if_true]
          rw [ih]
          refine ⟨?_, ?_⟩
          · rintro ⟨ds, brace, rfl, rfl, hbrace, hlen, hhex⟩
            exact ⟨c :: ds, brace, by simp, rfl, hbrace, Nat.succ_le_succ hlen,
              List.forall_mem_cons.mpr ⟨hd, hhex⟩⟩
          · rintro ⟨ds, brace, rfl, h, hbrace, hlen, hhex⟩
            obtain ⟨ds, rfl, rfl⟩ := hsplit ds brace hbrace h
            exact ⟨ds, brace, by simp, rfl, hbrace, Nat.le_of_succ_le_succ hlen,
              (List.forall_mem_cons.mp hhex).2⟩
        · simp only [bracedDigits, hopen, hd, Bool.false_eq_true, if_false, reduceCtorEq, false_iff]
          rintro ⟨ds, brace, -, h, hbrace, -, hhex⟩
          obtain ⟨ds, rfl, -⟩ := hsplit ds brace hbrace h
          exact hd (hhex _ List.mem_cons_self)

/-- The trailing surrogate of a pair takes six characters. -/
theorem length_of_trailing? {tail : List Nat} {low : Nat} (h : Escape.trailing? tail = some low) :
    tail.length = 6 := by
  unfold Escape.trailing? at h
  split at h
  · rfl
  · cases h

theorem isHexDigit_of_isHex {ds : List Nat} : IsHex ds ↔ ds.all CharClass.isHexDigit = true :=
  List.all_eq_true.symm

theorem isAlphanumeric_of_isHexDigit {c : Nat} (h : CharClass.isHexDigit c = true) :
    (CharClass.isLetter c || CharClass.isDigit c) = true := by
  simp only [CharClass.isHexDigit, CharClass.isLetter, CharClass.isDigit, Bool.or_eq_true,
    Bool.and_eq_true, decide_eq_true_eq] at h ⊢
  omega

/-- Four digits are all that is read before a fifth character. -/
theorem takeWhile_take_four (hlen : as.length = 4) (hhex : IsHex (codes as)) :
    ((as ++ rest).take 4).takeWhile (fun c => CharClass.isLetter c.code || CharClass.isDigit c.code)
      = as := by
  rw [List.take_left' hlen, List.takeWhile_eq_self_iff]
  exact fun c hc => isAlphanumeric_of_isHexDigit (hhex _ (List.mem_map_of_mem hc))

theorem eq_append_of_length_takeWhile {p : SourceChar → Bool}
    (h : ((cs.take 4).takeWhile p).length = 4) :
    cs = (cs.take 4).takeWhile p ++ cs.drop ((cs.take 4).takeWhile p).length := by
  have htake : (cs.take 4).takeWhile p = cs.take 4 := by
    refine (List.takeWhile_prefix p).eq_of_length_le ?_
    rw [h]
    exact List.length_take_le _ _
  rw [h, htake, List.take_append_drop]

/-- An escape in braces. -/
theorem unicodeEscape_braced {start : List SourceChar} {brace : SourceChar}
    (hbrace : brace.code = 0x7B) : unicodeEscape start (brace :: cs) = .ok n ↔
      ∃ ds close rest, cs = ds ++ close :: rest ∧ close.code = 0x7D ∧ ds ≠ [] ∧ ds.length ≤ 8 ∧
        IsHex (codes ds) ∧ Utf8.isScalarValue (Escape.hexValue (codes ds)) = true ∧
        ds.length + 2 = n := by
  have htake : takeOne (· == '{'.toNat) (brace :: cs) = ([brace], cs) :=
    takeOne_eq_iff.mpr ⟨rfl, .inr ⟨brace, rfl, by simp [hbrace]⟩⟩
  rw [unicodeEscape, htake]
  simp only [bind_eq_ok_iff, Prod.exists, bracedDigits_eq_ok_iff, List.nil_append]
  refine ⟨?_, ?_⟩
  · rintro ⟨ds, rest, ⟨_, close, rfl, rfl, hclose, hlen, hhex⟩, h⟩
    split_ifs at h with hbad
    rw [Bool.or_eq_true, not_or, List.isEmpty_iff, Bool.not_eq_true, Bool.not_eq_false'] at hbad
    exact ⟨ds, close, rest, rfl, hclose, hbad.1, hlen, hhex, hbad.2, Except.ok.inj h⟩
  · rintro ⟨ds, close, rest, rfl, hclose, hne, hlen, hhex, hscalar, rfl⟩
    refine ⟨ds, rest, ⟨ds, close, rfl, rfl, hclose, hlen, hhex⟩, ?_⟩
    rw [if_neg]
    rw [Bool.or_eq_true, not_or, List.isEmpty_iff, Bool.not_eq_true, Bool.not_eq_false']
    exact ⟨hne, hscalar⟩

/-- An escape of four digits, or of a surrogate pair. -/
theorem unicodeEscape_digits {start : List SourceChar} (hcs : comes (· == 0x7B) cs = false) :
    unicodeEscape start cs = .ok n ↔
      ∃ ds rest, cs = ds ++ rest ∧ ds.length = 4 ∧ IsHex (codes ds) ∧
        ((Utf8.isSurrogate (Escape.hexValue (codes ds)) = false ∧ n = 4) ∨
          (Utf8.isHighSurrogate (Escape.hexValue (codes ds)) = true ∧
            (Escape.trailing? (codes (rest.take 6))).isSome = true ∧ n = 10)) := by
  have htake : takeOne (· == '{'.toNat) cs = ([], cs) := takeOne_eq_iff.mpr ⟨rfl, .inl ⟨rfl, hcs⟩⟩
  rw [unicodeEscape, htake]
  refine ⟨?_, ?_⟩
  · intro h
    dsimp only at h
    generalize hds : (cs.take 4).takeWhile
      (fun c => CharClass.isLetter c.code || CharClass.isDigit c.code) = ds at h
    split_ifs at h with hbad hhigh
    · simp only [Bool.or_eq_true, bne_iff_ne, ne_eq, Bool.not_eq_true', not_or, not_not,
        Bool.not_eq_false, Bool.not_eq_true] at hbad
      have hsplit := eq_append_of_length_takeWhile (hds ▸ hbad.1.1)
      rw [hds] at hsplit
      refine ⟨ds, _, hsplit, hbad.1.1, isHexDigit_of_isHex.mpr hbad.1.2, .inr ⟨hhigh, ?_⟩⟩
      cases ht : Escape.trailing? (codes ((cs.drop ds.length).take 6)) with
      | none => simp [ht] at h
      | some low =>
        rw [ht] at h
        exact ⟨rfl, (Except.ok.inj h).symm⟩
    · simp only [Bool.or_eq_true, bne_iff_ne, ne_eq, Bool.not_eq_true', not_or, not_not,
        Bool.not_eq_false, Bool.not_eq_true] at hbad
      have hsplit := eq_append_of_length_takeWhile (hds ▸ hbad.1.1)
      rw [hds] at hsplit
      refine ⟨ds, _, hsplit, hbad.1.1, isHexDigit_of_isHex.mpr hbad.1.2, .inl ⟨?_, ?_⟩⟩
      · rw [Utf8.isSurrogate, hbad.2, Bool.or_false]
        simpa using hhigh
      · exact (Except.ok.inj h).symm
  · rintro ⟨ds, rest, rfl, hlen, hhex, h⟩
    dsimp only
    rw [takeWhile_take_four hlen hhex, List.drop_left' rfl, if_neg]
    · rcases h with ⟨hs, rfl⟩ | ⟨hhigh, htail, rfl⟩
      · rw [Utf8.isSurrogate, Bool.or_eq_false_iff] at hs
        rw [hs.1]
        rfl
      · obtain ⟨low, hlow⟩ := Option.isSome_iff_exists.mp htail
        rw [if_pos hhigh, hlow]
    · have hlow : Utf8.isLowSurrogate (Escape.hexValue (codes ds)) = false := by
        rcases h with ⟨hs, -⟩ | ⟨hhigh, -, -⟩
        · rw [Utf8.isSurrogate, Bool.or_eq_false_iff] at hs
          exact hs.2
        · simp only [Utf8.isHighSurrogate, Bool.and_eq_true, decide_eq_true_eq] at hhigh
          simp only [Utf8.isLowSurrogate, Bool.and_eq_false_iff, decide_eq_false_iff_not]
          omega
      simp [hlen, isHexDigit_of_isHex.mp hhex, hlow]

theorem not_comes_brace (hlen : as.length = 4) (hhex : IsHex (codes as)) :
    comes (· == 0x7B) (as ++ rest) = false := by
  cases as with
  | nil => cases hlen
  | cons a as =>
    refine beq_eq_false_iff_ne.mpr fun h => ?_
    have hdigit : CharClass.isHexDigit a.code = true := hhex _ List.mem_cons_self
    rw [h] at hdigit
    cases hdigit

theorem unicodeEscape_eq_ok_iff {start : List SourceChar} : unicodeEscape start cs = .ok n ↔
    ∃ seq rest, cs = seq ++ rest ∧ IsUnicodeEscape (codes seq) ∧ seq.length = n := by
  refine ⟨fun h => ?_, ?_⟩
  · by_cases hcs : comes (· == 0x7B) cs = true
    · cases cs with
      | nil => cases hcs
      | cons brace cs =>
        have hbrace : brace.code = 0x7B := by simpa using hcs
        obtain ⟨ds, close, rest, rfl, hclose, hne, hlen, hhex, hscalar, rfl⟩ :=
          (unicodeEscape_braced hbrace).mp h
        refine ⟨brace :: (ds ++ [close]), rest, by simp, ?_, by simp⟩
        simpa [hbrace, hclose] using
          IsUnicodeEscape.braced (mt codes_eq_nil_iff.mp hne) (by simpa [codes] using hlen) hhex
            hscalar
    · rw [Bool.not_eq_true] at hcs
      obtain ⟨ds, rest, rfl, hlen, hhex, ⟨hs, rfl⟩ | ⟨hhigh, htail, rfl⟩⟩ :=
        (unicodeEscape_digits hcs).mp h
      · exact ⟨ds, rest, rfl, .unit (by simpa [codes] using hlen) hhex hs, hlen⟩
      · obtain ⟨low, hlow⟩ := Option.isSome_iff_exists.mp htail
        have hsix : (rest.take 6).length = 6 := by
          simpa only [codes, List.length_map] using length_of_trailing? hlow
        refine ⟨ds ++ rest.take 6, rest.drop 6, ?_, ?_, by rw [List.length_append, hlen, hsix]⟩
        · rw [List.append_assoc, List.take_append_drop]
        · rw [codes_append]
          exact .pair (by simpa [codes] using hlen) hhex hhigh hlow
  · rintro ⟨seq, rest, rfl, hseq, rfl⟩
    generalize hcodes : codes seq = s at hseq
    cases hseq with
    | unit hlen hhex hs =>
      subst hcodes
      replace hlen : seq.length = 4 := by simpa [codes] using hlen
      exact (unicodeEscape_digits (not_comes_brace hlen hhex)).mpr
        ⟨seq, rest, rfl, hlen, hhex, .inl ⟨hs, hlen⟩⟩
    | pair hlen hhex hhigh htail =>
      obtain ⟨ds, tail, rfl, rfl, rfl⟩ := List.map_eq_append_iff.mp hcodes
      replace hlen : ds.length = 4 := by simpa using hlen
      have hsix : tail.length = 6 := by simpa using length_of_trailing? htail
      rw [List.append_assoc]
      refine (unicodeEscape_digits (not_comes_brace hlen hhex)).mpr
        ⟨ds, tail ++ rest, rfl, hlen, hhex, .inr ⟨hhigh, ?_, by simp [hlen, hsix]⟩⟩
      rw [List.take_left' hsix]
      exact Option.isSome_of_eq_some htail
    | braced hne hlen hhex hscalar =>
      obtain ⟨brace, seq, rfl, hbrace, hseq⟩ := List.map_eq_cons_iff.mp hcodes
      obtain ⟨ds, closes, rfl, rfl, hclose⟩ := List.map_eq_append_iff.mp hseq
      obtain ⟨close, rfl, hbrace'⟩ := List.map_eq_singleton_iff.mp hclose
      refine (unicodeEscape_braced hbrace).mpr ⟨ds, close, rest, by simp, hbrace', ?_, ?_, hhex,
        hscalar, by simp⟩
      · rintro rfl
        exact hne rfl
      · simpa using hlen

theorem escape_eq_ok_iff : escape cs = .ok n ↔
    ∃ seq rest, cs = seq ++ rest ∧ IsEscape (codes seq) ∧ seq.length = n := by
  cases cs with
  | nil =>
    simp only [escape, failAt, reduceCtorEq, List.nil_eq_append_iff, false_iff]
    rintro ⟨seq, rest, ⟨rfl, rfl⟩, h, -⟩
    cases h
  | cons c cs =>
    rw [escape]
    by_cases hsimple : (Escape.simple? c.code).isSome = true
    · rw [if_pos hsimple, Except.ok.injEq]
      refine ⟨?_, ?_⟩
      · rintro rfl
        exact ⟨[c], cs, rfl, .simple hsimple, rfl⟩
      · rintro ⟨seq, rest, h, hseq, rfl⟩
        generalize hcodes : codes seq = s at hseq
        cases hseq with
        | simple => exact (by simpa [codes] using congrArg List.length hcodes.symm)
        | unicode =>
          obtain ⟨u, seq, rfl, hu, -⟩ := List.map_eq_cons_iff.mp hcodes
          cases h
          rw [hu] at hsimple
          cases hsimple
    · rw [if_neg hsimple]
      by_cases hu : c.code = 0x75
      · have hchar : c.isChar 'u' = true := by simp [SourceChar.isChar, hu]
        rw [if_pos hchar]
        have hmap : (· + 1) <$> unicodeEscape (c :: cs) cs = .ok n ↔
            ∃ m, unicodeEscape (c :: cs) cs = .ok m ∧ m + 1 = n := by
          cases unicodeEscape (c :: cs) cs <;> simp [Functor.map, Except.map]
        rw [hmap]
        simp only [unicodeEscape_eq_ok_iff]
        refine ⟨?_, ?_⟩
        · rintro ⟨m, ⟨seq, rest, rfl, hseq, rfl⟩, rfl⟩
          exact ⟨c :: seq, rest, rfl, by simpa [hu] using IsEscape.unicode hseq, rfl⟩
        · rintro ⟨seq, rest, h, hseq, rfl⟩
          generalize hcodes : codes seq = s at hseq
          cases hseq with
          | simple hs =>
            obtain ⟨a, rfl, rfl⟩ := List.map_eq_singleton_iff.mp hcodes
            cases h
            exact absurd hs hsimple
          | unicode hseq =>
            obtain ⟨u, seq, rfl, -, rfl⟩ := List.map_eq_cons_iff.mp hcodes
            rw [List.cons_append, List.cons.injEq] at h
            exact ⟨seq.length, ⟨seq, rest, h.2, hseq, rfl⟩, rfl⟩
      · have hchar : c.isChar 'u' = false := by simpa [SourceChar.isChar] using hu
        simp only [hchar, failAt, Bool.false_eq_true, if_false, reduceCtorEq, false_iff]
        rintro ⟨seq, rest, h, hseq, -⟩
        generalize hcodes : codes seq = s at hseq
        cases hseq with
        | simple hs =>
          obtain ⟨a, rfl, rfl⟩ := List.map_eq_singleton_iff.mp hcodes
          cases h
          exact hsimple hs
        | unicode hseq =>
          obtain ⟨u, seq, rfl, hu', -⟩ := List.map_eq_cons_iff.mp hcodes
          cases h
          exact hu hu'

theorem keep_eq_ok_iff {c : SourceChar} {scan : Scan} : keep c scan = .ok (as, rest) ↔
    ∃ inner, as = c :: inner ∧ scan = .ok (inner, rest) := by
  cases scan with
  | error fault => simp [keep, Except.map]
  | ok taken =>
    obtain ⟨inner, after⟩ := taken
    simp only [keep, Except.map, Except.ok.injEq, Prod.mk.injEq]
    exact ⟨fun ⟨h, h'⟩ => ⟨inner, h.symm, rfl, h'⟩, fun ⟨_, h, h', h''⟩ => ⟨h' ▸ h.symm, h''⟩⟩

/-- The characters of an escape are taken whatever they are. -/
theorem quotedBody_inside (seq : List SourceChar) :
    quotedBody seq.length (seq ++ cs) = .ok (as, rest) ↔
      ∃ inner, as = seq ++ inner ∧ quotedBody 0 cs = .ok (inner, rest) := by
  induction seq generalizing as with
  | nil => simp
  | cons c seq ih =>
    rw [List.cons_append, List.length_cons, quotedBody, keep_eq_ok_iff]
    refine ⟨?_, ?_⟩
    · rintro ⟨_, rfl, h⟩
      obtain ⟨inner, rfl, hinner⟩ := ih.mp h
      exact ⟨inner, rfl, hinner⟩
    · rintro ⟨inner, rfl, h⟩
      exact ⟨seq ++ inner, rfl, ih.mpr ⟨inner, rfl, h⟩⟩

theorem quotedBody_char {c : SourceChar} (hc : isQuotedChar c.code = true) :
    quotedBody 0 (c :: cs) = keep c (quotedBody 0 cs) := by
  simp only [isQuotedChar, Bool.and_eq_true, Bool.not_eq_true', bne_iff_ne, ne_eq] at hc
  obtain ⟨⟨⟨hsource, hline⟩, hquote⟩, hback⟩ := hc
  simp [quotedBody, SourceChar.isChar, hsource, hline, hquote, hback]

theorem quotedBody_backslash {c : SourceChar} (hc : c.code = 0x5C) :
    quotedBody 0 (c :: cs) = .ok (as, rest) ↔
      ∃ length, escape cs = .ok length ∧ keep c (quotedBody length cs) = .ok (as, rest) := by
  have : quotedBody 0 (c :: cs) = (escape cs >>= fun length => keep c (quotedBody length cs)) := by
    cases h : escape cs <;>
      simp [quotedBody, SourceChar.isChar, hc, h, bind, Except.bind, CharClass.isLineTerminator]
  rw [this, bind_eq_ok_iff]

/-- A quoted string's body ends at the first quote that no escape holds. -/
theorem quotedBody_eq_ok_iff : quotedBody 0 cs = .ok (as, rest) ↔
    cs = as ++ rest ∧ IsQuoted (codes as) ∧ comes (· == 0x22) rest = true := by
  refine ⟨fun h => ?_, ?_⟩
  · induction hn : cs.length using Nat.strongRecOn generalizing cs as with
    | ind n ih =>
      cases cs with
      | nil => cases h
      | cons c cs =>
        have ih' : ∀ {seq after inner : List SourceChar}, cs = seq ++ after →
            quotedBody 0 after = .ok (inner, rest) →
            after = inner ++ rest ∧ IsQuoted (codes inner) ∧ comes (· == 0x22) rest = true := by
          intro seq after inner hcs hinner
          refine ih after.length ?_ hinner rfl
          rw [← hn, hcs, List.length_cons, List.length_append]
          omega
        by_cases hquote : c.code = 0x22
        · have hclose : quotedBody 0 (c :: cs) = .ok ([], c :: cs) := by
            simp [quotedBody, SourceChar.isChar, hquote]
          rw [hclose] at h
          cases h
          exact ⟨rfl, .nil, by simp [hquote]⟩
        · by_cases hback : c.code = 0x5C
          · obtain ⟨length, hescape, hkeep⟩ := (quotedBody_backslash hback).mp h
            obtain ⟨_, rfl, hinside⟩ := keep_eq_ok_iff.mp hkeep
            obtain ⟨seq, after, rfl, hseq, rfl⟩ := escape_eq_ok_iff.mp hescape
            obtain ⟨inner, rfl, hafter⟩ := (quotedBody_inside seq).mp hinside
            obtain ⟨rfl, hinner, hrest⟩ := ih' rfl hafter
            refine ⟨by simp, ?_, hrest⟩
            simpa [hback] using IsQuoted.escape hseq hinner
          · by_cases hchar : isQuotedChar c.code = true
            · rw [quotedBody_char hchar] at h
              obtain ⟨inner, rfl, hcs⟩ := keep_eq_ok_iff.mp h
              obtain ⟨rfl, hinner, hrest⟩ := ih' (List.nil_append _).symm hcs
              exact ⟨rfl, .char hchar hinner, hrest⟩
            · simp only [isQuotedChar, Bool.and_eq_true, Bool.not_eq_true', bne_iff_ne, ne_eq,
                hquote, hback, not_false_eq_true, and_true, not_and, Bool.not_eq_false] at hchar
              by_cases hline : CharClass.isLineTerminator c.code = true
              · simp [quotedBody, SourceChar.isChar, hquote, hline, failAt] at h
              · have hsource : CharClass.isSource c.code = false :=
                  Bool.eq_false_iff.mpr fun hs => hline (hchar hs)
                simp [quotedBody, SourceChar.isChar, hquote, hback, hline, hsource, failAt] at h
  · rintro ⟨rfl, hbody, hrest⟩
    generalize hcodes : codes as = body at hbody
    induction hbody generalizing as with
    | nil =>
      obtain rfl := codes_eq_nil_iff.mp hcodes
      cases rest with
      | nil => cases hrest
      | cons q rest =>
        have hq : q.code = 0x22 := by simpa using hrest
        simp [quotedBody, SourceChar.isChar, hq]
    | char hchar _ ih =>
      obtain ⟨c, as, rfl, rfl, htail⟩ := List.map_eq_cons_iff.mp hcodes
      rw [List.cons_append, quotedBody_char hchar]
      exact keep_eq_ok_iff.mpr ⟨as, rfl, ih htail⟩
    | escape hseq _ ih =>
      obtain ⟨c, _, rfl, hc, hcodes'⟩ := List.map_eq_cons_iff.mp hcodes
      obtain ⟨seq, as, rfl, rfl, htail⟩ := List.map_eq_append_iff.mp hcodes'
      rw [List.cons_append, quotedBody_backslash hc, List.append_assoc]
      refine ⟨seq.length, escape_eq_ok_iff.mpr ⟨seq, _, rfl, hseq, rfl⟩, ?_⟩
      exact keep_eq_ok_iff.mpr ⟨seq ++ as, rfl, (quotedBody_inside seq).mpr ⟨as, rfl, ih htail⟩⟩

/-- The quotes around a block string. -/
def quotes : List Nat := [0x22, 0x22, 0x22]

/-- `true` where a block string cannot go on with a character of its own: it ends, or escaped quotes
follow. -/
def IsDelimited (cs : List Nat) : Prop := quotes <+: cs ∨ 0x5C :: quotes <+: cs

/-- The body of a block string, which has its closing quotes after it. -/
inductive IsBlock : List Nat → Prop
  | nil : IsBlock []
  | char {c : Nat} {body : List Nat} : CharClass.isSource c = true →
      ¬ IsDelimited (c :: body ++ quotes) → IsBlock body → IsBlock (c :: body)
  | quotes {body : List Nat} : IsBlock body → IsBlock (0x5C :: (quotes ++ body))

theorem startsWith_iff {pattern : List Char} :
    startsWith pattern cs = true ↔ pattern.map Char.toNat <+: codes cs := by
  rw [List.prefix_iff_eq_take, startsWith, beq_iff_eq, List.length_map, codes, codes, List.map_take]
  exact eq_comm

theorem startsWith_tripleQuote : startsWith tripleQuote cs = true ↔ quotes <+: codes cs :=
  startsWith_iff

theorem startsWith_escaped : startsWith ('\\' :: tripleQuote) cs = true ↔
    0x5C :: quotes <+: codes cs :=
  startsWith_iff

theorem prefix_append_iff {pattern xs ys : List Nat} (h : pattern.length ≤ xs.length) :
    pattern <+: xs ++ ys ↔ pattern <+: xs := by
  rw [List.prefix_iff_eq_take, List.prefix_iff_eq_take, List.take_append_of_le_length h]

/-- What follows the closing quotes does not matter to the body before them. -/
theorem isDelimited_append {c : Nat} {body more : List Nat} :
    IsDelimited (c :: body ++ (quotes ++ more)) ↔ IsDelimited (c :: body ++ quotes) := by
  have hlen : (0x5C :: quotes).length ≤ (c :: body ++ quotes).length := by simp [quotes]
  unfold IsDelimited
  rw [← List.append_assoc, prefix_append_iff hlen,
    prefix_append_iff (Nat.le_trans (Nat.le_succ _) hlen)]

theorem blockBody_inside (seq : List SourceChar) :
    blockBody seq.length (seq ++ cs) = .ok (as, rest) ↔
      ∃ inner, as = seq ++ inner ∧ blockBody 0 cs = .ok (inner, rest) := by
  induction seq generalizing as with
  | nil => simp
  | cons c seq ih =>
    rw [List.cons_append, List.length_cons, blockBody, keep_eq_ok_iff]
    refine ⟨?_, ?_⟩
    · rintro ⟨_, rfl, h⟩
      obtain ⟨inner, rfl, hinner⟩ := ih.mp h
      exact ⟨inner, rfl, hinner⟩
    · rintro ⟨inner, rfl, h⟩
      exact ⟨seq ++ inner, rfl, ih.mpr ⟨inner, rfl, h⟩⟩

theorem blockBody_char {c : SourceChar} (hc : CharClass.isSource c.code = true)
    (hd : ¬ IsDelimited (codes (c :: cs))) :
    blockBody 0 (c :: cs) = keep c (blockBody 0 cs) := by
  obtain ⟨hquotes, hescaped⟩ := not_or.mp hd
  rw [blockBody, if_neg (mt startsWith_tripleQuote.mp hquotes),
    if_neg (mt startsWith_escaped.mp hescaped), hc]
  rfl

/-- A backslash before three quotes does not end a block string. -/
theorem not_prefix_quotes_backslash {c : SourceChar} (hc : c.code = 0x5C) :
    ¬ quotes <+: codes (c :: cs) := by
  rw [codes_cons, hc]
  intro h
  have := (List.cons_prefix_cons.mp h).1
  cases this

theorem blockBody_escaped {c : SourceChar} {seq : List SourceChar} (hc : c.code = 0x5C)
    (hseq : codes seq = quotes) : blockBody 0 (c :: (seq ++ cs)) = .ok (as, rest) ↔
      ∃ inner, as = c :: (seq ++ inner) ∧ blockBody 0 cs = .ok (inner, rest) := by
  have hlen : seq.length = 3 := by simpa [codes, quotes] using congrArg List.length hseq
  have hescaped : 0x5C :: quotes <+: codes (c :: (seq ++ cs)) := by
    rw [codes_cons, codes_append, hc, hseq]
    exact List.prefix_append (0x5C :: quotes) (codes cs)
  rw [blockBody, if_neg (mt startsWith_tripleQuote.mp (not_prefix_quotes_backslash hc)),
    if_pos (startsWith_escaped.mpr hescaped), keep_eq_ok_iff, ← hlen]
  simp only [blockBody_inside]
  constructor
  · rintro ⟨_, h, inner, rfl, hb⟩
    exact ⟨inner, h, hb⟩
  · rintro ⟨inner, h, hb⟩
    exact ⟨seq ++ inner, h, inner, rfl, hb⟩

/-- Characters that begin with certain codes, split after them. -/
theorem exists_append_of_isPrefixOf {pattern : List Nat} (h : pattern <+: codes cs) :
    ∃ seq after, cs = seq ++ after ∧ codes seq = pattern := by
  obtain ⟨more, h⟩ := h
  obtain ⟨seq, after, rfl, hseq, -⟩ := List.map_eq_append_iff.mp h.symm
  exact ⟨seq, after, rfl, hseq⟩

/-- A block string's body ends at the first three quotes that no backslash stands before. -/
theorem blockBody_eq_ok_iff : blockBody 0 cs = .ok (as, rest) ↔
    cs = as ++ rest ∧ IsBlock (codes as) ∧ quotes <+: codes rest := by
  refine ⟨fun h => ?_, ?_⟩
  · induction hn : cs.length using Nat.strongRecOn generalizing cs as with
    | ind n ih =>
      cases cs with
      | nil => cases h
      | cons c cs =>
        have ih' : ∀ {seq after inner : List SourceChar}, cs = seq ++ after →
            blockBody 0 after = .ok (inner, rest) →
            after = inner ++ rest ∧ IsBlock (codes inner) ∧ quotes <+: codes rest := by
          intro seq after inner hcs hinner
          refine ih after.length ?_ hinner rfl
          rw [← hn, hcs, List.length_cons, List.length_append]
          omega
        by_cases hquotes : quotes <+: codes (c :: cs)
        · rw [blockBody, if_pos (startsWith_tripleQuote.mpr hquotes)] at h
          cases h
          exact ⟨rfl, .nil, hquotes⟩
        · by_cases hescaped : 0x5C :: quotes <+: codes (c :: cs)
          · rw [codes_cons, List.cons_prefix_cons] at hescaped
            obtain ⟨hc, hprefix⟩ := hescaped
            obtain ⟨seq, after, rfl, hseq⟩ := exists_append_of_isPrefixOf hprefix
            obtain ⟨inner, rfl, hafter⟩ := (blockBody_escaped hc.symm hseq).mp h
            obtain ⟨rfl, hinner, hrest⟩ := ih' rfl hafter
            refine ⟨by simp, ?_, hrest⟩
            simpa [← hc, hseq] using IsBlock.quotes hinner
          · have hd : ¬ IsDelimited (codes (c :: cs)) := not_or.mpr ⟨hquotes, hescaped⟩
            by_cases hsource : CharClass.isSource c.code = true
            · rw [blockBody_char hsource hd] at h
              obtain ⟨inner, rfl, hcs⟩ := keep_eq_ok_iff.mp h
              obtain ⟨rfl, hinner, hrest⟩ := ih' (List.nil_append _).symm hcs
              refine ⟨rfl, .char hsource ?_ hinner, hrest⟩
              obtain ⟨more, hmore⟩ := hrest
              rw [codes_cons, codes_append, ← hmore] at hd
              exact fun h' => hd (isDelimited_append.mpr h')
            · rw [blockBody, if_neg (mt startsWith_tripleQuote.mp hquotes),
                if_neg (mt startsWith_escaped.mp hescaped)] at h
              simp [hsource, failAt] at h
  · rintro ⟨rfl, hbody, hrest⟩
    generalize hcodes : codes as = body at hbody
    induction hbody generalizing as with
    | nil =>
      obtain rfl := codes_eq_nil_iff.mp hcodes
      cases rest with
      | nil => exact absurd (List.prefix_nil.mp hrest) (List.cons_ne_nil _ _)
      | cons q rest =>
        rw [List.nil_append, blockBody, if_pos (startsWith_tripleQuote.mpr hrest)]
    | char hsource hd _ ih =>
      obtain ⟨c, as, rfl, rfl, rfl⟩ := List.map_eq_cons_iff.mp hcodes
      rw [List.cons_append, blockBody_char hsource]
      · exact keep_eq_ok_iff.mpr ⟨as, rfl, ih rfl⟩
      · obtain ⟨more, hmore⟩ := hrest
        rw [codes_cons, codes_append, ← hmore]
        exact fun h' => hd (isDelimited_append.mp h')
    | quotes _ ih =>
      obtain ⟨c, as, rfl, hc, hcodes⟩ := List.map_eq_cons_iff.mp hcodes
      obtain ⟨seq, as, rfl, hseq, hcodes⟩ := List.map_eq_append_iff.mp hcodes
      rw [List.cons_append, List.append_assoc, blockBody_escaped hc hseq]
      exact ⟨as, rfl, ih hcodes⟩

end GraphQL.Lexer
