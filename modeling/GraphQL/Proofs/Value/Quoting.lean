import GraphQL.Proofs.Document.Printing
import GraphQL.Proofs.Token.Decoding

/-! Writing strings back. The text of a string is one string token with the string as its value,
unless the string holds a control character that quoting leaves as it is. Escapes of a source make
such strings; block strings do not. -/

namespace GraphQL

open Utf8 (Spells)

/-- A string whose text is one string token, which has the string as its value. -/
def Scalar.WritesBack (s : Text) : Prop :=
  ∃ a body, Lexer.Reader.Reads (.ofText (Scalar.string s).toText) [a] ∧
    a.value = .scalar (.string .quoted body) ∧ (Literal.string .quoted body).cooked = .ok s

theorem isStringText_iff {t : Text} :
    IsStringText t ↔ Spells (CharClass.isSource · = true) t := by
  constructor
  · rintro ⟨cs, rfl, hcs⟩
    induction cs with
    | nil => exact .nil
    | cons c cs ih =>
      obtain ⟨hc, hcs⟩ := List.forall_mem_cons.mp hcs
      exact .char hc.1 hc.2 (ih hcs)
  · intro h
    induction h with
    | nil => exact ⟨[], rfl, List.forall_mem_nil _⟩
    | @char c _ hscalar hc _ ih =>
      obtain ⟨cs, rfl, hcs⟩ := ih
      exact ⟨c :: cs, rfl, List.forall_mem_cons.mpr ⟨⟨hscalar, hc⟩, hcs⟩⟩

theorem isSource_of_le {c : Nat} (hlow : 0x20 ≤ c) (hhigh : c ≤ 0x10FFFF) :
    CharClass.isSource c = true := by
  have hne : (c != Utf8.malformed) = true := bne_iff_ne.mpr (by unfold Utf8.malformed; omega)
  rw [CharClass.isSource, hne, decide_eq_true hlow]
  exact Bool.or_true _

/-- Well-formed text is that of a string up to its first control character. -/
theorem Utf8.Spells.isStringText_or {s : Text} (h : Spells (fun _ => True) s) :
    IsStringText s ∨ ∃ before b after, s = before ++ b :: after ∧ IsStringText before ∧
      CharClass.isSource b.toNat = false := by
  simp only [isStringText_iff]
  refine h.cases_ascii (motive := fun s => Spells (CharClass.isSource · = true) s ∨
    ∃ before b after, s = before ++ b :: after ∧
      Spells (CharClass.isSource · = true) before ∧ CharClass.isSource b.toNat = false) ?_ ?_ ?_
  · exact .inl .nil
  · intro b rest hascii _ _ ih
    cases hb : CharClass.isSource b.toNat with
    | false => exact .inr ⟨[], b, rest, rfl, .nil, hb⟩
    | true =>
      rcases ih with hrest | ⟨before, d, after, rfl, hbefore, hd⟩
      · exact .inl (hrest.ascii hascii hb)
      · exact .inr ⟨b :: before, d, after, rfl, hbefore.ascii hascii hb, hd⟩
  · intro c rest hc hscalar _ _ ih
    have hsource := isSource_of_le (by omega) (Utf8.isScalarValue_iff.mp hscalar).1
    rcases ih with hrest | ⟨before, d, after, rfl, hbefore, hd⟩
    · exact .inl (.char hscalar hsource hrest)
    · exact .inr ⟨Utf8.encode c ++ before, d, after, (List.append_assoc ..).symm,
        .char hscalar hsource hbefore, hd⟩

theorem isSource_of_mem {s : Text} (hs : IsStringText s) :
    ∀ b ∈ s, CharClass.isSource b.toNat = true := by
  refine (isStringText_iff.mp hs).cases_ascii
    (motive := fun s => ∀ b ∈ s, CharClass.isSource b.toNat = true) (List.forall_mem_nil _) ?_ ?_
  · intro b rest _ hb _ ih
    exact List.forall_mem_cons.mpr ⟨hb, ih⟩
  · intro c rest hc _ _ _ ih
    refine List.forall_mem_append.mpr ⟨fun b hb => ?_, ih⟩
    have hlow := Utf8.toNat_ge_of_mem_encode hc hb
    have hhigh := b.toNat_lt
    exact isSource_of_le (by omega) (by omega)

namespace Lexer

variable {as cs rest : List SourceChar} {fault : Fault}

theorem keep_error (c : SourceChar) (fault : Fault) : keep c (.error fault) = .error fault := rfl

theorem quotedBody_skip (seq : List SourceChar) (h : quotedBody 0 cs = .error fault) :
    quotedBody seq.length (seq ++ cs) = .error fault := by
  induction seq with
  | nil => exact h
  | cons c seq ih => rw [List.cons_append, List.length_cons, quotedBody, ih, keep_error]

/-- What a quoted string cannot hold is found behind any beginning of a body. -/
theorem quotedBody_append (h : IsQuoted (codes as)) (hrest : quotedBody 0 rest = .error fault) :
    quotedBody 0 (as ++ rest) = .error fault := by
  generalize hcodes : codes as = body at h
  induction h generalizing as with
  | nil =>
    obtain rfl := codes_eq_nil_iff.mp hcodes
    exact hrest
  | char hchar _ ih =>
    obtain ⟨c, as, rfl, rfl, hbody⟩ := List.map_eq_cons_iff.mp hcodes
    rw [List.cons_append, quotedBody_char hchar, ih hbody, keep_error]
  | escape hseq _ ih =>
    obtain ⟨c, _, rfl, hc, hmore⟩ := List.map_eq_cons_iff.mp hcodes
    obtain ⟨seq, as, rfl, rfl, hbody⟩ := List.map_eq_append_iff.mp hmore
    have hescape : escape (seq ++ (as ++ rest)) = .ok seq.length :=
      escape_eq_ok_iff.mpr ⟨seq, _, rfl, hseq, rfl⟩
    have hquote : c.isChar '"' = false := not_isChar (by rw [hc]; decide)
    have hline : CharClass.isLineTerminator c.code = false := by rw [hc]; rfl
    have hback : c.isChar '\\' = true := by rw [SourceChar.isChar, hc]; rfl
    rw [List.cons_append, List.append_assoc, quotedBody, hquote, hline, hback]
    simp only [Bool.false_eq_true, if_false, if_true, hescape]
    rw [quotedBody_skip seq (ih hbody), keep_error]

theorem ne_of_not_isSource {c d : Nat} (hc : CharClass.isSource c = false)
    (hd : CharClass.isSource d = true) : c ≠ d := by
  rintro rfl
  rw [hc] at hd
  cases hd

theorem quotedBody_control {c : SourceChar} (hc : CharClass.isSource c.code = false) :
    quotedBody 0 (c :: cs) = failAt (.unknownCharacterInString c.code) (c :: cs) := by
  have hquote : c.isChar '"' = false := not_isChar (ne_of_not_isSource hc rfl)
  have hline : CharClass.isLineTerminator c.code = false := by
    rw [CharClass.isLineTerminator, Bool.or_eq_false_iff, beq_eq_false_iff_ne, beq_eq_false_iff_ne]
    exact ⟨ne_of_not_isSource hc rfl, ne_of_not_isSource hc rfl⟩
  have hback : c.isChar '\\' = false := not_isChar (ne_of_not_isSource hc rfl)
  simp only [quotedBody, hquote, hline, hback, hc, Bool.false_eq_true, if_false, Bool.not_false,
    if_true]

/-- A quoted string that holds a control character is refused at it. -/
theorem string_control {opening inner : List SourceChar} {c : SourceChar}
    (hopening : codes opening = [0x22]) (hinner : IsQuoted (codes inner))
    (hc : CharClass.isSource c.code = false) :
    string (opening ++ (inner ++ c :: cs)) =
      failAt (.unknownCharacterInString c.code) (c :: cs) := by
  obtain ⟨q, rfl, hq⟩ := List.map_eq_singleton_iff.mp hopening
  have hsecond : comes (· == 0x22) (inner ++ c :: cs) = false := by
    by_cases hnil : inner = []
    · subst hnil
      exact beq_eq_false_iff_ne.mpr (ne_of_not_isSource hc rfl)
    · exact hinner.not_quote hnil
  have htriple : ¬ startsWith tripleQuote ([q] ++ (inner ++ c :: cs)) = true := by
    rw [startsWith_tripleQuote, List.singleton_append, codes_cons]
    intro hquotes
    have hone : [0x22] <+: codes (inner ++ c :: cs) :=
      (List.prefix_append [0x22] [0x22]).trans (List.cons_prefix_cons.mp hquotes).2
    rw [quote_prefix_iff, hsecond] at hone
    cases hone
  rw [string, if_neg htriple, delimited, List.singleton_append, List.drop_succ_cons, List.drop_zero,
    quotedBody_append hinner (quotedBody_control hc)]
  rfl

/-- Quoting leaves control characters as they are. -/
theorem Scalar.quoteByte_control {b : UInt8} (hb : CharClass.isSource b.toNat = false) :
    Scalar.quoteByte b = [b] := by
  have hne {d : UInt8} (hd : CharClass.isSource d.toNat = true) : ¬ (b == d) = true := by
    intro hbd
    rw [eq_of_beq hbd, hd] at hb
    cases hb
  rw [Scalar.quoteByte, if_neg (hne rfl), if_neg (hne rfl), if_neg (hne rfl), if_neg (hne rfl),
    if_neg (hne rfl)]

theorem plain_quote_control {before after : Text} {b : UInt8}
    (hb : CharClass.isSource b.toNat = false) :
    Source.plain (Scalar.quote (before ++ b :: after)) =
      ⟨0x22, [0x22], .origin⟩ :: (Source.plain (before.flatMap Scalar.quoteByte) ++
        ⟨b.toNat, [b], .origin⟩ ::
          Source.plain (after.flatMap Scalar.quoteByte ++ lit "\"")) := by
  have hascii : b.toNat < 0x80 := by
    by_contra hle
    rw [isSource_of_le (by omega) (by have := b.toNat_lt; omega)] at hb
    cases hb
  have hfresh : Utf8.startsFresh (b :: (after.flatMap Scalar.quoteByte ++ lit "\"")) = true := by
    have hlow : decide (0x80 ≤ b.toNat) = false := decide_eq_false (by omega)
    rw [Utf8.startsFresh, List.head?_cons, Option.any_some, Utf8.isContinuation, hlow]
    rfl
  have htext : Scalar.quote (before ++ b :: after) = 0x22 :: (before.flatMap Scalar.quoteByte ++
      b :: (after.flatMap Scalar.quoteByte ++ lit "\"")) := by
    rw [Scalar.quote, List.flatMap_append, List.flatMap_cons, Scalar.quoteByte_control hb]
    simp only [List.append_assoc]
    rfl
  rw [htext, Source.plain_ascii (by decide), Source.plain_append_fresh _ hfresh,
    Source.plain_ascii hascii]
  rfl

/-- The text of a string with a control character does not tokenize. -/
theorem next_quote_control {before : Text} (after : Text) {b : UInt8}
    (hbefore : IsStringText before) (hb : CharClass.isSource b.toNat = false) : ∃ failure,
      (Reader.ofText (Scalar.quote (before ++ b :: after))).next = .error failure ∧
        failure.error.value = .unknownCharacterInString b.toNat := by
  generalize hsource : Source.ofText (Scalar.quote (before ++ b :: after)) = source
  have hchars := @plain_quote_control before after b hb
  rw [Source.plain, hsource] at hchars
  obtain ⟨q, more, hmore, hq, hinner⟩ := List.map_eq_cons_iff.mp hchars
  obtain ⟨inner, tail, rfl, hbody, htail⟩ := List.map_eq_append_iff.mp hinner
  obtain ⟨c, cs, rfl, hc, -⟩ := List.map_eq_cons_iff.mp htail
  have hcode : c.code = b.toNat := congrArg SourceChar.code hc
  have hquoted : IsQuoted (codes inner) := by
    have hcodes : codes (Source.unplaced inner) = codes inner := codes_unplaced inner
    rw [← hcodes, Source.unplaced, hbody]
    exact isQuoted_flatMap hbefore
  have hqcode : q.code = 0x22 := congrArg SourceChar.code hq
  have hskip : (skip source).chars = q :: (inner ++ c :: cs) := by
    have hcomment : q.isChar '#' = false := not_isChar (by rw [hqcode]; decide)
    have hignored : CharClass.isIgnored q.code = false := by rw [hqcode]; rfl
    rw [skip, hmore, skipIgnored, hcomment, hignored]
    rfl
  have hscan : scan q (inner ++ c :: cs) =
      failAt (.unknownCharacterInString c.code) (c :: cs) := by
    have hopening : codes [q] = [0x22] := by rw [codes, List.map_singleton, hqcode]
    rw [scan_quote hqcode]
    exact string_control hopening hquoted (hcode ▸ hb)
  have hnext : next? source = .error
      (Fault.locate ⟨.unknownCharacterInString c.code, c :: cs, c :: cs⟩ source.stop) := by
    rw [next?, hskip]
    simp only [hscan, failAt]
  refine ⟨_, (congrArg (fun s => Reader.next ⟨s, false⟩) hsource).trans
    (Reader.next_of_error hnext), ?_⟩
  rw [← hcode]
  rfl

end Lexer

namespace Scalar

open Lexer

/-- Text that a string may hold is written back. -/
theorem writesBack_of_isStringText {s : Text} (hs : IsStringText s) : WritesBack s := by
  have hlexes : Lexes (Source.plain (quote s))
      [.scalar (.string .quoted (s.flatMap quoteByte))] := by
    have hprints := (lexeme_quote hs).prints [] [] closes_nil (.nil rfl)
    rwa [List.append_nil] at hprints
  obtain ⟨tokens, hreads, hvalues⟩ := (hlexes.of_unplaced rfl).reads (Source.ofText (quote s)).stop
  obtain ⟨a, rfl, hvalue⟩ := List.map_eq_singleton_iff.mp hvalues
  exact ⟨a, _, hreads, hvalue, Escape.decode_quoted s⟩

/-- A string is written back unless it holds a control character other than a tab and the line
terminators. -/
theorem writesBack_iff {s : Text} (hs : Spells (fun _ => True) s) :
    WritesBack s ↔ ∀ b ∈ s, CharClass.isSource b.toNat = true := by
  rcases hs.isStringText_or with htext | ⟨before, b, after, rfl, hbefore, hb⟩
  · exact ⟨fun _ => isSource_of_mem htext, fun _ => writesBack_of_isStringText htext⟩
  · refine ⟨fun ⟨a, body, hreads, _⟩ => ?_, fun h => ?_⟩
    · obtain ⟨failure, hnext, -⟩ := next_quote_control after hbefore hb
      cases hreads with
      | cons h => rw [toText, hnext] at h; cases h
    · have hb' := h b (List.mem_append_right _ List.mem_cons_self)
      rw [hb] at hb'
      cases hb'

end Scalar

/-- What the strings of a source stand for, quoted or in a block, is written back exactly when it
holds no control character other than a tab and the line terminators, and so from every block
string. -/
theorem Literal.cooked_writesBack_iff {t : Text} {a : Located Token} {style : StringStyle}
    {body : Text} (ha : a ∈ (Lexer.run (Source.ofText t)).tokens)
    (hvalue : a.value = .scalar (.string style body)) :
    ∃ s, (Literal.string style body).cooked = .ok s ∧
      (Scalar.WritesBack s ↔ ∀ b ∈ s, CharClass.isSource b.toNat = true) ∧
      (style = .block → Scalar.WritesBack s) := by
  obtain ⟨s, hs, hspells, hblock⟩ := Lexer.exists_cooked_of_mem_run ha hvalue
  exact ⟨s, hs, Scalar.writesBack_iff hspells, fun hstyle =>
    Scalar.writesBack_of_isStringText (isStringText_iff.mpr (hblock hstyle))⟩

namespace Bell

/-- A string of one character, the bell, which only an escape can write. -/
def source : Text := lit "\"\\u0007\""

def token : Located Token :=
  ⟨.scalar (.string .quoted (lit "\\u0007")), ⟨⟨0, 0, 0⟩, ⟨8, 0, 8⟩⟩⟩

theorem not_writesBack_bell : token ∈ (Lexer.run (Source.ofText source)).tokens ∧
    (Literal.string .quoted (lit "\\u0007")).cooked = .ok [0x07] ∧
    ¬ Scalar.WritesBack [0x07] := by
  have hmem : token ∈ (Lexer.run (Source.ofText source)).tokens := by decide
  obtain ⟨s, hs, hiff, -⟩ := Literal.cooked_writesBack_iff hmem rfl
  have hcooked : (Literal.string .quoted (lit "\\u0007")).cooked = .ok [0x07] := by decide
  obtain rfl : s = [0x07] := Except.ok.inj (hs.symm.trans hcooked)
  exact ⟨hmem, hcooked, fun h => absurd (hiff.mp h) (by decide)⟩

end Bell

end GraphQL
