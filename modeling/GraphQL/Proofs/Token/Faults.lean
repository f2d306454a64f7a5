import Mathlib.Data.List.Basic
import GraphQL.Proofs.Errs
import GraphQL.Proofs.Token.Decoding

/-! What is told of a source when it is at fault. The place of a fault, and the place where reading
stopped, lie among the characters that were to be read. Stray bytes show as the replacement
character, and whatever else is quoted from the source is quoted in whole characters, so that no
message holds part of one. -/

namespace GraphQL

/-- What an error shows of the source is well-formed. -/
def LexError.IsLegible : LexError → Prop
  | .unknownCharacter c => (Utf8.display c).IsWellFormed
  | .unexpectedCharacter c => (Utf8.display c).IsWellFormed
  | .unknownCharacterInString c => (Utf8.display c).IsWellFormed
  | .unknownEscapeSequence sequence => sequence.IsWellFormed
  | .unterminatedString => True
  | .unterminatedBlockString => True
  | .unexpectedEndOfFile => True
  | .invalidNumber => True

theorem LexError.IsLegible.message {e : LexError} (h : e.IsLegible) : e.message.IsWellFormed := by
  cases e with
  | unknownCharacter c => exact .between _ _ h
  | unexpectedCharacter c => exact .between _ _ h
  | unknownCharacterInString c => exact .between _ _ h
  | unknownEscapeSequence sequence => exact .between _ _ h
  | unterminatedString => exact .lit _
  | unterminatedBlockString => exact .lit _
  | unexpectedEndOfFile => exact .lit _
  | invalidNumber => exact .lit _

namespace Lexer

open Source (bytes)

variable {as cs ds rest start : List SourceChar} {α : Type}

/-- A fault among some characters: its place, and what it leaves, are what some of them have after
them. -/
structure Fault.IsWithin (cs : List SourceChar) (fault : Fault) : Prop where
  legible : fault.error.IsLegible
  place : fault.place <:+ cs
  rest : fault.rest <:+ cs

theorem Fault.IsWithin.mono {fault : Fault} (h : fault.IsWithin ds) (hds : ds <:+ cs) :
    fault.IsWithin cs := ⟨h.legible, h.place.trans hds, h.rest.trans hds⟩

theorem errs_failAt {error : LexError} (h : error.IsLegible) (hds : ds <:+ cs) :
    Errs (Fault.IsWithin cs) (failAt error ds : Except Fault α) := .error ⟨h, hds, hds⟩

theorem errs_mono {x : Except Fault α} (h : Errs (Fault.IsWithin ds) x) (hds : ds <:+ cs) :
    Errs (Fault.IsWithin cs) x := h.mono fun _ hfault => hfault.mono hds

/-! ### Numbers -/

theorem errs_digits (hcs : ∀ c ∈ cs, c.Faithful) : Errs (Fault.IsWithin cs) (digits cs) := by
  cases cs with
  | nil => exact errs_failAt trivial List.suffix_rfl
  | cons c cs =>
    rw [digits]
    split_ifs
    · exact .ok _
    · exact errs_failAt (hcs c List.mem_cons_self).isWellFormed_display List.suffix_rfl

theorem errs_integerPart (hcs : ∀ c ∈ cs, c.Faithful) :
    Errs (Fault.IsWithin cs) (integerPart cs) := by
  unfold integerPart
  split
  · rename_i c after
    split_ifs
    · cases after with
      | nil => exact .ok _
      | cons d after =>
        have hd := (List.forall_mem_cons.mp (List.forall_mem_cons.mp hcs).2).1
        dsimp only
        split_ifs
        · exact errs_failAt hd.isWellFormed_display (List.suffix_cons c _)
        · exact .ok _
    · exact errs_digits hcs
  · exact errs_digits hcs

theorem errs_fractionPart (hcs : ∀ c ∈ cs, c.Faithful) :
    Errs (Fault.IsWithin cs) (fractionPart cs) := by
  unfold fractionPart
  cases hpoint : takeOne (· == '.'.toNat) cs with
  | mk point after =>
    obtain ⟨rfl, -⟩ := takeOne_eq_iff.mp hpoint
    have hafter := errs_digits (List.forall_mem_append.mp hcs).2
    cases point with
    | nil => exact .ok _
    | cons c point => exact (errs_mono hafter (List.suffix_append _ _)).bind fun _ _ => .ok _

theorem errs_exponentPart (hcs : ∀ c ∈ cs, c.Faithful) :
    Errs (Fault.IsWithin cs) (exponentPart cs) := by
  unfold exponentPart
  cases hmark : takeOne (fun c => c == 'e'.toNat || c == 'E'.toNat) cs with
  | mk mark after =>
    obtain ⟨rfl, -⟩ := takeOne_eq_iff.mp hmark
    have hafter := (List.forall_mem_append.mp hcs).2
    cases mark with
    | nil => exact .ok _
    | cons c mark =>
      cases hsign : takeOne (fun c => c == '+'.toNat || c == '-'.toNat) after with
      | mk sign rest =>
        obtain ⟨rfl, -⟩ := takeOne_eq_iff.mp hsign
        have hrest := errs_digits (List.forall_mem_append.mp hafter).2
        have hsuffix := (List.suffix_append sign rest).trans (List.suffix_append (c :: mark) _)
        simp only [hsign]
        exact (errs_mono hrest hsuffix).bind fun _ _ => .ok _

theorem errs_number (hcs : ∀ c ∈ cs, c.Faithful) : Errs (Fault.IsWithin cs) (number cs) := by
  unfold number
  -- Each part is scanned in what the parts before it leave, a suffix of what there was.
  cases hsign : takeOne (· == '-'.toNat) cs with
  | mk sign rest =>
    obtain ⟨rfl, -⟩ := takeOne_eq_iff.mp hsign
    have hrest := (List.forall_mem_append.mp hcs).2
    have hsuffix := List.suffix_append sign rest
    refine (errs_mono (errs_integerPart hrest) hsuffix).bind fun ⟨whole, rest⟩ hwhole => ?_
    obtain ⟨rfl, -⟩ := integerPart_eq_ok_iff.mp hwhole
    have hrest := (List.forall_mem_append.mp hrest).2
    have hsuffix := (List.suffix_append whole rest).trans hsuffix
    refine (errs_mono (errs_fractionPart hrest) hsuffix).bind fun ⟨fraction, rest⟩ hfraction => ?_
    obtain ⟨rfl, -⟩ := fractionPart_eq_ok_iff.mp hfraction
    have hrest := (List.forall_mem_append.mp hrest).2
    have hsuffix := (List.suffix_append fraction rest).trans hsuffix
    refine (errs_mono (errs_exponentPart hrest) hsuffix).bind fun ⟨exponent, rest⟩ hexponent => ?_
    obtain ⟨rfl, -⟩ := exponentPart_eq_ok_iff.mp hexponent
    have hsuffix := (List.suffix_append exponent rest).trans hsuffix
    cases hends : endsNumber rest with
    | false =>
      simp only [hends]
      exact .error ⟨trivial, List.suffix_rfl, hsuffix⟩
    | true =>
      simp only [hends]
      exact .ok _

/-! ### Strings -/

/-- Characters of a class that stray bytes are not of. -/
theorem isWellFormed_class {p : Nat → Prop} (hp : ¬ p Utf8.malformed)
    (has : ∀ c ∈ as, c.Faithful) (hclass : ∀ c ∈ codes as, p c) : (bytes as).IsWellFormed := by
  refine Source.isWellFormed_bytes has fun c hc hmalformed => hp ?_
  rw [← hmalformed]
  exact hclass c hc

theorem isLegible_sequence {digits : List SourceChar} {c : SourceChar}
    (hdigits : (bytes digits).IsWellFormed) (hc : c.Faithful) :
    (LexError.unknownEscapeSequence (bracedDigits.sequence digits c)).IsLegible :=
  ((Text.IsWellFormed.lit _).append hdigits).append hc.isWellFormed_display

theorem errs_bracedDigits {room : Nat} {digits : List SourceChar} (hcs : ∀ c ∈ cs, c.Faithful)
    (hdigits : (bytes digits).IsWellFormed) (hstart : cs <:+ start) :
    Errs (Fault.IsWithin start) (bracedDigits start room digits cs) := by
  fun_induction bracedDigits start room digits cs with
  | case1 => exact errs_failAt trivial hstart
  | case2 => exact .ok _
  | case3 digits c cs _ room hhex ih =>
    obtain ⟨hc, hcs⟩ := List.forall_mem_cons.mp hcs
    apply ih hcs
    · rw [Source.bytes_append]
      have hdigit : ∀ d ∈ codes [c], CharClass.isHexDigit d = true :=
        List.forall_mem_singleton.mpr hhex
      exact hdigits.append
        (isWellFormed_class (by decide) (List.forall_mem_singleton.mpr hc) hdigit)
    · exact (List.suffix_cons c cs).trans hstart
  | case4 digits c cs =>
    exact .error ⟨isLegible_sequence hdigits (hcs c List.mem_cons_self), List.suffix_rfl, hstart⟩
  | case5 digits c cs =>
    exact .error ⟨isLegible_sequence hdigits (hcs c List.mem_cons_self), List.suffix_rfl, hstart⟩

theorem errs_unicodeEscape (hcs : ∀ c ∈ cs, c.Faithful) (hstart : cs <:+ start) :
    Errs (Fault.IsWithin start) (unicodeEscape start cs) := by
  unfold unicodeEscape
  cases hbrace : takeOne (· == '{'.toNat) cs with
  | mk brace inner =>
    obtain ⟨rfl, -⟩ := takeOne_eq_iff.mp hbrace
    cases brace with
    | nil =>
      dsimp only [List.nil_append] at hcs hstart ⊢
      generalize hds : (inner.take 4).takeWhile
        (fun c => CharClass.isLetter c.code || CharClass.isDigit c.code) = ds
      have hlegible : (LexError.unknownEscapeSequence (lit "\\u" ++ bytes ds)).IsLegible := by
        subst hds
        refine (Text.IsWellFormed.lit _).append (isWellFormed_class
          (p := fun c => (CharClass.isLetter c || CharClass.isDigit c) = true) (by decide) ?_ ?_)
        · exact fun c hc => hcs c (List.take_subset 4 inner (List.takeWhile_subset _ hc))
        · refine List.forall_mem_map.mpr fun c hc => ?_
          have hclass := List.mem_takeWhile_imp hc
          exact hclass
      have hrefused : Fault.IsWithin start
          ⟨.unknownEscapeSequence (lit "\\u" ++ bytes ds), start, inner.drop ds.length⟩ :=
        ⟨hlegible, List.suffix_rfl, (List.drop_suffix _ _).trans hstart⟩
      split_ifs
      · exact .error hrefused
      · split
        · exact .ok _
        · exact .error hrefused
      · exact .ok _
    | cons c brace =>
      have hinner := (List.forall_mem_append.mp hcs).2
      have hnone : (bytes []).IsWellFormed := .nil
      have hsuffix := (List.suffix_append (c :: brace) inner).trans hstart
      refine (errs_bracedDigits hinner hnone hsuffix).bind fun ⟨ds, rest⟩ hds => ?_
      obtain ⟨_, close, rfl, rfl, -, -, hhex⟩ := bracedDigits_eq_ok_iff.mp hds
      have hdigits := isWellFormed_class (by decide) (List.forall_mem_append.mp hinner).1 hhex
      have hrest := ((List.suffix_cons close rest).trans (List.suffix_append _ _)).trans hsuffix
      dsimp only
      split_ifs
      · exact .error ⟨hdigits.between _ _, List.suffix_rfl, hrest⟩
      · exact .ok _

theorem errs_escape (hcs : ∀ c ∈ cs, c.Faithful) : Errs (Fault.IsWithin cs) (escape cs) := by
  unfold escape
  split
  · exact errs_failAt trivial List.suffix_rfl
  · rename_i c after
    obtain ⟨hc, hafter⟩ := List.forall_mem_cons.mp hcs
    split_ifs
    · exact .ok _
    · exact (errs_unicodeEscape hafter (List.suffix_cons c after)).map _
    · exact errs_failAt ((Text.IsWellFormed.lit _).append hc.isWellFormed_display) List.suffix_rfl

/-- A character before a scan is not at fault. -/
theorem errs_keep {c : SourceChar} {scan : Scan} (h : Errs (Fault.IsWithin cs) scan) :
    Errs (Fault.IsWithin (c :: cs)) (keep c scan) :=
  errs_mono (h.map _) (List.suffix_cons c cs)

theorem errs_quotedBody {inside : Nat} (hcs : ∀ c ∈ cs, c.Faithful) :
    Errs (Fault.IsWithin cs) (quotedBody inside cs) := by
  fun_induction quotedBody inside cs with
  | case1 => exact errs_failAt trivial List.suffix_rfl
  | case2 inside c cs ih => exact errs_keep (ih (List.forall_mem_cons.mp hcs).2)
  | case3 => exact .ok _
  | case4 => exact errs_failAt trivial List.suffix_rfl
  | case5 c cs _ _ _ length _ ih => exact errs_keep (ih (List.forall_mem_cons.mp hcs).2)
  | case6 c cs _ _ _ fault hfault =>
    have hescape := errs_escape (List.forall_mem_cons.mp hcs).2 fault hfault
    exact .error (hescape.mono (List.suffix_cons c cs))
  | case7 c cs =>
    exact errs_failAt (hcs c List.mem_cons_self).isWellFormed_display List.suffix_rfl
  | case8 c cs _ _ _ _ ih => exact errs_keep (ih (List.forall_mem_cons.mp hcs).2)

theorem errs_blockBody {inside : Nat} (hcs : ∀ c ∈ cs, c.Faithful) :
    Errs (Fault.IsWithin cs) (blockBody inside cs) := by
  fun_induction blockBody inside cs with
  | case1 => exact errs_failAt trivial List.suffix_rfl
  | case2 inside c cs ih => exact errs_keep (ih (List.forall_mem_cons.mp hcs).2)
  | case3 => exact .ok _
  | case4 c cs _ _ ih => exact errs_keep (ih (List.forall_mem_cons.mp hcs).2)
  | case5 c cs =>
    exact errs_failAt (hcs c List.mem_cons_self).isWellFormed_display List.suffix_rfl
  | case6 c cs _ _ _ ih => exact errs_keep (ih (List.forall_mem_cons.mp hcs).2)

theorem errs_string (hcs : ∀ c ∈ cs, c.Faithful) : Errs (Fault.IsWithin cs) (string cs) := by
  have hdrop (n : Nat) : ∀ c ∈ cs.drop n, c.Faithful := fun c hc => hcs c (List.drop_subset n cs hc)
  unfold string delimited
  split_ifs
  · exact (errs_mono (errs_blockBody (hdrop 3)) (List.drop_suffix 3 cs)).bind fun _ _ => .ok _
  · exact (errs_mono (errs_quotedBody (hdrop 1)) (List.drop_suffix 1 cs)).bind fun _ _ => .ok _

/-! ### Tokens -/

theorem errs_ellipsis (cs : List SourceChar) : Errs (Fault.IsWithin cs) (ellipsis cs) := by
  have hpoint : (Utf8.display '.'.toNat).IsWellFormed := .lit "."
  have hgo (n : Nat) : ∀ rest, rest <:+ cs → Errs (Fault.IsWithin cs) (ellipsis.go cs n rest) := by
    intro rest hrest
    fun_induction ellipsis.go cs n rest with
    | case1 => exact .ok _
    | case2 => exact errs_failAt trivial hrest
    | case3 n c rest _ ih => exact ih ((List.suffix_cons c rest).trans hrest)
    | case4 => exact .error ⟨hpoint, List.suffix_rfl, hrest⟩
  exact hgo 3 cs List.suffix_rfl

theorem errs_scan {c : SourceChar} (hcs : ∀ a ∈ c :: cs, a.Faithful) :
    Errs (Fault.IsWithin (c :: cs)) (scan c cs) := by
  unfold scan
  split
  · exact .ok _
  · split_ifs
    · exact errs_ellipsis _
    · exact errs_string hcs
    · exact .ok _
    · exact errs_number hcs
    · exact errs_failAt (hcs c List.mem_cons_self).isWellFormed_display List.suffix_rfl

/-- A step fails at a fault among the characters that are left. -/
theorem next?_eq_error {s : Source} {failure : Failure} (hs : ∀ c ∈ s.chars, c.Faithful)
    (h : next? s = .error failure) :
    ∃ fault : Fault, fault.IsWithin s.chars ∧ failure = fault.locate s.stop := by
  have hsuffix := skipIgnored_suffix false s.chars
  have hchars : ∀ c ∈ (skip s).chars, c.Faithful := fun c hc => hs c (hsuffix.subset hc)
  rw [next?] at h
  cases hskip : (skip s).chars with
  | nil => simp [hskip] at h
  | cons c cs =>
    rw [hskip] at hchars
    cases hscan : scan c cs with
    | ok scanned => simp [hskip, hscan] at h
    | error fault =>
      simp only [hskip, hscan, Except.error.injEq] at h
      have hwithin := errs_scan hchars fault hscan
      rw [← hskip] at hwithin
      exact ⟨fault, hwithin.mono hsuffix, h.symm⟩

theorem isLegible_of_next? {t : Text} {n : Nat} {s : Source} {failure : Failure}
    (hs : s.Remains t n) (h : next? s = .error failure) : failure.error.value.IsLegible := by
  obtain ⟨fault, hfault, rfl⟩ := next?_eq_error hs.faithful h
  exact hfault.legible

/-- Why a text does not split into tokens is told in well-formed text. -/
theorem isLegible_of_run {t : Text} {failure : Failure}
    (h : (run (Source.ofText t)).ending = .error failure) : failure.error.value.IsLegible := by
  have hremains : ∃ n, (Source.ofText t).Remains t n := ⟨0, Source.remains_ofText t⟩
  generalize Source.ofText t = s at h hremains
  obtain ⟨n, hremains⟩ := hremains
  induction s using source_induction generalizing n with
  | failed s found hnext =>
    rw [run_eq, hnext] at h
    cases h
    exact isLegible_of_next? hremains hnext
  | ended s hnext =>
    rw [run_eq, hnext] at h
    cases h
  | token s a after hnext ih =>
    rw [run_eq, hnext] at h
    obtain ⟨-, -, -, -, -, hafter⟩ := next?_remains hremains hnext
    exact ih h _ hafter

/-! ### Tokens as they are shown -/

theorem IsDigits.ascii {ds : List Nat} (h : IsDigits ds) : ∀ c ∈ ds, c < 0x80 := by
  intro c hc
  have hdigit := h.2 c hc
  simp only [CharClass.isDigit, Bool.and_eq_true, decide_eq_true_eq] at hdigit
  omega

theorem IsNumber.ascii {isFloat : Bool} {ds : List Nat} (h : IsNumber isFloat ds) :
    ∀ c ∈ ds, c < 0x80 := by
  obtain ⟨sign, whole, fraction, exponent, rfl, hsign, hwhole, hfraction, hexponent, -⟩ := h
  simp only [List.forall_mem_append]
  refine ⟨?_, ?_, ?_, ?_⟩
  · rcases hsign with rfl | rfl <;> decide
  · rcases hwhole with rfl | ⟨hdigits, -⟩
    · decide
    · exact hdigits.ascii
  · rcases hfraction with rfl | ⟨digits, rfl, hdigits⟩
    · exact List.forall_mem_nil _
    · exact List.forall_mem_cons.mpr ⟨by decide, hdigits.ascii⟩
  · rcases hexponent with rfl | ⟨mark, sign, digits, rfl, hmark, hsign, hdigits⟩
    · exact List.forall_mem_nil _
    · rw [List.forall_mem_cons, List.forall_mem_append]
      refine ⟨?_, ?_, hdigits.ascii⟩
      · rcases eq_of_isExponentMark hmark with rfl | rfl <;> decide
      · rcases hsign with rfl | ⟨s, rfl, hs⟩
        · exact List.forall_mem_nil _
        · simp only [isSign, Bool.or_eq_true, beq_iff_eq] at hs
          rw [List.forall_mem_singleton]
          omega

theorem ne_malformed_of_isSource {c : Nat} (h : CharClass.isSource c = true) :
    c ≠ Utf8.malformed := by
  rintro rfl
  cases h

theorem ne_malformed_of_ascii {c : Nat} (h : c < 0x80) : c ≠ Utf8.malformed := by
  rintro rfl
  exact absurd h (by decide)

/-- A quoted string holds no stray bytes. -/
theorem IsQuoted.ne_malformed {cs : List Nat} (h : IsQuoted cs) : ∀ c ∈ cs, c ≠ Utf8.malformed := by
  induction h with
  | nil => exact List.forall_mem_nil _
  | char hchar _ ih =>
    simp only [isQuotedChar, Bool.and_eq_true] at hchar
    exact List.forall_mem_cons.mpr ⟨ne_malformed_of_isSource hchar.1.1.1, ih⟩
  | escape hseq _ ih =>
    rw [List.forall_mem_cons, List.forall_mem_append]
    exact ⟨by decide, fun c hc => ne_malformed_of_ascii (hseq.ascii c hc), ih⟩

/-- No byte of a longer character is escaped. -/
theorem quoteBody_encode {c : Nat} (hc : 0x80 ≤ c) :
    Literal.quoteBody (Utf8.encode c) = Utf8.encode c := by
  have hplain : ∀ b ∈ Utf8.encode c,
      (if b == Text.byte '\\' || b == Text.byte '"' then [Text.byte '\\', b] else [b]) = [b] := by
    intro b hb
    have hback : b ≠ Text.byte '\\' := Utf8.ne_of_mem_encode hc (by decide) b hb
    have hquote : b ≠ Text.byte '"' := Utf8.ne_of_mem_encode hc (by decide) b hb
    rw [beq_eq_false_iff_ne.mpr hback, beq_eq_false_iff_ne.mpr hquote]
    rfl
  rw [Literal.quoteBody, List.flatMap_congr hplain, List.flatMap_singleton']

/-- The backslashes go between characters, never into one. -/
theorem isWellFormed_quoteBody {body : Text} (h : body.IsWellFormed) :
    (Literal.quoteBody body).IsWellFormed := by
  have hspells := Text.isWellFormed_iff_spells.mp h
  refine hspells.cases_ascii (motive := fun t => (Literal.quoteBody t).IsWellFormed) .nil ?_ ?_
  · intro b rest hb _ _ ih
    rw [Literal.quoteBody, List.flatMap_cons, ← Literal.quoteBody]
    split_ifs
    · exact .cons (by decide) (.cons hb ih)
    · exact .cons hb ih
  · intro c rest hc hscalar _ _ ih
    rw [Literal.quoteBody, List.flatMap_append, ← Literal.quoteBody, ← Literal.quoteBody,
      quoteBody_encode hc]
    exact (Text.IsWellFormed.encode hscalar).append ih

theorem isWellFormed_body {style : StringStyle} (has : ∀ c ∈ as, c.Faithful)
    (hbody : IsBody style (codes as)) : (bytes as).IsWellFormed := by
  cases style with
  | quoted => exact Source.isWellFormed_bytes has (IsQuoted.ne_malformed hbody)
  | block =>
    exact Source.isWellFormed_bytes has fun c hc =>
      ne_malformed_of_isSource (IsBlock.isSource hbody c hc)

/-- Every token of a source shows as well-formed text. -/
theorem Lexeme.isWellFormed_toText {token : Token} (h : Lexeme token as)
    (has : ∀ c ∈ as, c.Faithful) : token.toText.IsWellFormed := by
  cases h with
  | @mark c p hp => cases p <;> exact .lit _
  | ellipsis => exact .lit _
  | @name c more hc hmore =>
    have hnames : ∀ d ∈ codes (c :: more), CharClass.isNameContinue d = true :=
      List.forall_mem_cons.mpr ⟨by rw [CharClass.isNameContinue, hc]; rfl, hmore⟩
    exact isWellFormed_class (by decide) has hnames
  | @number isFloat _ hnumber =>
    have hdigits := Source.isWellFormed_bytes has fun c hc =>
      ne_malformed_of_ascii (hnumber.ascii c hc)
    cases isFloat <;> exact hdigits
  | @string style opening body closing _ hbody _ =>
    rw [List.forall_mem_append, List.forall_mem_append] at has
    have hinside := isWellFormed_body has.2.1 hbody
    cases style with
    | quoted => exact .between _ _ (isWellFormed_quoteBody hinside)
    | block => exact .between _ _ hinside

theorem isWellFormed_of_mem_run {t : Text} {a : Located Token}
    (ha : a ∈ (run (Source.ofText t)).tokens) : a.value.toText.IsWellFormed :=
  (lexeme_of_mem_run (Source.remains_ofText t) ha).isWellFormed_toText Source.faithful_plain

end Lexer

end GraphQL
