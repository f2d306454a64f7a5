import GraphQL.Proofs.Text.BlockString
import GraphQL.Proofs.Token.Escapes

/-! The value of a string that was read from a source. Escapes of a quoted string decode to
characters, so that decoding never fails and gives well-formed UTF-8; the value of a block string
holds characters of the source only. -/

namespace GraphQL

open Utf8 (Spells)

namespace Lexer

open Source (bytes)

variable {as : List SourceChar} {token : Token} {style : StringStyle} {body : Text}

/-- A block string holds characters of the source only. -/
theorem IsBlock.isSource {cs : List Nat} (h : IsBlock cs) :
    ∀ c ∈ cs, CharClass.isSource c = true := by
  induction h with
  | nil => exact List.forall_mem_nil _
  | char hsource _ _ ih => exact List.forall_mem_cons.mpr ⟨hsource, ih⟩
  | quotes _ ih =>
    rw [List.forall_mem_cons, List.forall_mem_append]
    exact ⟨rfl, by decide, ih⟩

theorem spells_bytes (has : ∀ c ∈ as, c.Faithful)
    (hsource : ∀ c ∈ codes as, CharClass.isSource c = true) :
    Spells (CharClass.isSource · = true) (bytes as) := by
  induction as with
  | nil => exact .nil
  | cons c as ih =>
    obtain ⟨hc, has⟩ := List.forall_mem_cons.mp has
    obtain ⟨hchar, hmore⟩ := List.forall_mem_cons.mp hsource
    obtain ⟨hscalar, hbytes⟩ := encode_of_isSource hc hchar
    rw [Source.bytes_cons, hbytes]
    exact .char hscalar hchar (ih has hmore)

/-- The value of a string token: well-formed UTF-8, of a block string without control characters. -/
theorem Lexeme.exists_cooked (h : Lexeme (.scalar (.string style body)) as)
    (has : ∀ c ∈ as, c.Faithful) : ∃ s, (Literal.string style body).cooked = .ok s ∧
      Spells (fun _ => True) s ∧ (style = .block → Spells (CharClass.isSource · = true) s) := by
  obtain ⟨opening, inner, closing, rfl, -, hbody, -, rfl⟩ := lexeme_string_iff.mp h
  rw [List.forall_mem_append, List.forall_mem_append] at has
  cases style with
  | quoted =>
    obtain ⟨cs, hcs⟩ := IsQuoted.exists_denotes hbody has.2.1
    exact ⟨_, hcs.decode, Utf8.spells_flatMap cs, nofun⟩
  | block =>
    have hsource := spells_bytes has.2.1 (IsBlock.isSource hbody)
    have hfeed : CharClass.isSource 0x0A = true := rfl
    have hvalue := BlockString.spells_value (p := (CharClass.isSource · = true)) hfeed
      (BlockString.spells_unescape hsource)
    exact ⟨_, rfl, hvalue.mono fun _ _ => trivial, fun _ => hvalue⟩

variable {t : Text} {s : Source} {n : Nat} {a : Located Token}

/-- Every token of a run covers its own lexeme in the text. -/
theorem lexeme_of_mem_run (h : s.Remains t n) (ha : a ∈ (run s).tokens) :
    Lexeme a.value (Source.plain (a.slice t)) := by
  induction s using source_induction generalizing n with
  | failed s failure hnext =>
    rw [run_eq, hnext] at ha
    cases ha
  | ended s hnext =>
    rw [run_eq, hnext] at ha
    cases ha
  | token s b after hnext ih =>
    obtain ⟨-, -, -, -, hlexeme, hafter⟩ := next?_remains h hnext
    rw [run_eq, hnext] at ha
    rcases List.mem_cons.mp ha with rfl | ha
    · exact hlexeme
    · exact ih hafter ha

/-- Strings of a source have a value. -/
theorem exists_cooked_of_mem_run (ha : a ∈ (run (Source.ofText t)).tokens)
    (hvalue : a.value = .scalar (.string style body)) :
    ∃ s, (Literal.string style body).cooked = .ok s ∧ Spells (fun _ => True) s ∧
      (style = .block → Spells (CharClass.isSource · = true) s) := by
  have hlexeme := lexeme_of_mem_run (Source.remains_ofText t) ha
  rw [hvalue] at hlexeme
  exact hlexeme.exists_cooked Source.faithful_plain

/-- Text with quotes around it. -/
def inQuotes (body : Text) : Text := 0x22 :: (body ++ [0x22])

/-- The character of a quote, wherever it stands. -/
def quote : SourceChar := ⟨0x22, [0x22], .origin⟩

theorem plain_inQuotes (body : Text) :
    Source.plain (inQuotes body) = quote :: (Source.plain body ++ [quote]) := by
  have hquote : (0x22 : UInt8).toNat < 0x80 := by decide
  rw [inQuotes, Source.plain_ascii hquote, Source.plain_append_fresh body rfl,
    Source.plain_ascii hquote []]
  rfl

/-- A sequence of items in quotes is a token. -/
theorem lexes_inQuotes {cs : List Char} (h : Escape.Denotes body cs) :
    Lexes (Source.plain (inQuotes body)) [.scalar (.string .quoted body)] := by
  have hbody : IsBody .quoted (codes (Source.plain body)) := isQuoted_of_denotes h
  have htoken : Lexeme (.scalar (.string .quoted (bytes (Source.plain body))))
      ([quote] ++ (Source.plain body ++ [quote])) := .string rfl hbody rfl
  rw [Source.bytes_plain] at htoken
  refine .cons ?_ htoken ends_nil (.nil rfl)
  rw [plain_inQuotes, List.append_nil]
  exact skipIgnored_of_startsToken (by decide) _

/-- What is in quotes is read as one string exactly if it is a sequence of items. -/
theorem reads_inQuotes_iff : (∃ a, Reader.Reads (.ofText (inQuotes body)) [a] ∧
    a.value = .scalar (.string .quoted body)) ↔ ∃ cs, Escape.Denotes body cs := by
  constructor
  · rintro ⟨a, hreads, hvalue⟩
    have hlexeme := hreads.lexeme (Source.remains_ofText _) a (List.mem_singleton_self a)
    rw [hvalue] at hlexeme
    obtain ⟨opening, inner, closing, hchars, -, hbody, -, rfl⟩ := lexeme_string_iff.mp hlexeme
    have hfaithful : ∀ c ∈ opening ++ (inner ++ closing), c.Faithful :=
      hchars ▸ Source.faithful_plain
    rw [List.forall_mem_append, List.forall_mem_append] at hfaithful
    exact IsQuoted.exists_denotes hbody hfaithful.2.1
  · rintro ⟨cs, hcs⟩
    have hlexes : Lexes (Source.ofText (inQuotes body)).chars _ :=
      (lexes_inQuotes hcs).of_unplaced rfl
    obtain ⟨tokens, hreads, hvalues⟩ := hlexes.reads (Source.ofText (inQuotes body)).stop
    obtain ⟨a, rfl, hvalue⟩ := List.map_eq_singleton_iff.mp hvalues
    exact ⟨a, hreads, hvalue⟩

end Lexer

namespace Literal

/-- Text in quotes reads as one string with that text as its body exactly if the text is a sequence
of items. Its value is then the characters which the items denote: decoding fails on none of them,
and what it gives is well-formed UTF-8. -/
theorem reads_and_cooks_inQuotes (body : Text) :
    ((∃ a, Lexer.Reader.Reads (.ofText (Lexer.inQuotes body)) [a] ∧
      a.value = .scalar (.string .quoted body)) ↔ ∃ cs, Escape.Denotes body cs) ∧
    ∀ cs, Escape.Denotes body cs →
      (Literal.string .quoted body).cooked = .ok (cs.flatMap String.utf8EncodeChar) ∧
        Text.IsWellFormed (cs.flatMap String.utf8EncodeChar) := by
  constructor
  · exact Lexer.reads_inQuotes_iff
  · intro cs hcs
    exact ⟨hcs.decode, Text.isWellFormed_iff_spells.mpr (Utf8.spells_flatMap cs)⟩

/-- A letter, two surrogates, digits in braces and a line feed. -/
def surrogates : Text := lit "a\\uD83D\\uDE00\\u\x7be9\x7d\\n"

theorem cooks_surrogates : Escape.Denotes surrogates ['a', '😀', 'é', '\n'] ∧
    (Literal.string .quoted surrogates).cooked =
      .ok (['a', '😀', 'é', '\n'].flatMap String.utf8EncodeChar) ∧
    Text.IsWellFormed (['a', '😀', 'é', '\n'].flatMap String.utf8EncodeChar) := by
  have hhigh : Escape.Numeral (lit "D83D") 0xD83D :=
    Escape.numeral_iff.mpr ⟨Lexer.isHexDigit_of_isHex.mpr rfl, rfl⟩
  have hlow : Escape.Numeral (lit "DE00") 0xDE00 :=
    Escape.numeral_iff.mpr ⟨Lexer.isHexDigit_of_isHex.mpr rfl, rfl⟩
  have hdigits : Escape.Numeral (lit "e9") 'é'.toNat :=
    Escape.numeral_iff.mpr ⟨Lexer.isHexDigit_of_isHex.mpr rfl, rfl⟩
  have hletter : Escape.Item (String.utf8EncodeChar 'a') 'a' :=
    .plain (by decide) (by decide) (.inr (by decide))
  have hpair : Escape.Item (lit "\\uD83D" ++ lit "\\uDE00") '😀' :=
    .pair rfl hhigh (by decide) (by decide) rfl hlow (by decide) (by decide) rfl
  have hbraced : Escape.Item (lit "\\u\x7be9\x7d") 'é' := .braced (by decide) (by decide) hdigits
  have hfeed : Escape.Item (lit "\\n") '\n' := .letter (by decide)
  have hdenotes : Escape.Denotes surrogates ['a', '😀', 'é', '\n'] :=
    .cons hletter (.cons hpair (.cons hbraced (.cons hfeed .nil)))
  exact ⟨hdenotes, (reads_and_cooks_inQuotes _).2 _ hdenotes⟩

end Literal

end GraphQL
