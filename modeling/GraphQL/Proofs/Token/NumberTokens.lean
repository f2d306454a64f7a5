import GraphQL.Proofs.Token.Faults
import GraphQL.Proofs.Token.Separators

/-! Numbers at the front of a text. What is read as a number is a numeral of the grammar, taken to
its end: no digit, point, underscore or letter follows it. Where a number would have to begin and no
such numeral stands, reading fails. -/

namespace GraphQL

namespace Source

theorem position_ofText (t : Text) : (ofText t).position = .origin := by
  cases t <;> rfl

/-- Whether a text begins with a character of ASCII is told by its first byte. -/
theorem comes_plain {p : Nat → Bool} (hp : ∀ c, p c = true → c < 0x80) (t : Text) :
    Lexer.comes p (plain t) = t.head?.any (p ·.toNat) := by
  cases t with
  | nil => rfl
  | cons b rest =>
    rw [plain_cons, Lexer.comes_cons, List.head?_cons, Option.any_some]
    by_cases hb : b.toNat < 0x80
    · rw [Utf8.decode_ascii hb]
    · have hcode : ¬ (Utf8.decode b rest).code < 0x80 := fun h => hb (code_decode_of_ascii h ▸ h)
      have hbyte : p b.toNat = false := Bool.eq_false_iff.mpr fun h => hb (hp _ h)
      rw [hbyte]
      exact Bool.eq_false_iff.mpr fun h => hcode (hp _ h)

end Source

namespace Lexer

open Source (bytes)

variable {t n c : Text} {isFloat : Bool} {as : List SourceChar}

/-- A text begins with a token: it is the first one read, and nothing stands before it. -/
def Reader.Begins (t : Text) (token : Token) : Prop :=
  ∃ a r, (Reader.ofText t).next = .ok (some a, r) ∧ a.value = token ∧ a.span.start = .origin

/-- A text that reads `-?(0|[1-9][0-9]*)(\.[0-9]+)?([eE][+-]?[0-9]+)?`, as a float if it has one of
the last two parts. -/
def IsNumeral (isFloat : Bool) (n : Text) : Prop := IsNumber isFloat (Escape.codes n)

/-- What may stand after a number: nothing, or what begins with none of `[0-9._A-Za-z]`. -/
def EndsNumeral (c : Text) : Prop := ∀ b ∈ c.head?, runsOn b.toNat = false

theorem runsOn_ascii {c : Nat} (h : runsOn c = true) : c < 0x80 := by
  simp only [runsOn, CharClass.isNameContinue, CharClass.isNameStart, CharClass.isLetter,
    CharClass.isDigit, Bool.or_eq_true, Bool.and_eq_true, beq_iff_eq, decide_eq_true_eq] at h
  omega

theorem endsNumeral_iff : EndsNumeral c ↔ comes runsOn (Source.plain c) = false := by
  rw [Source.comes_plain fun _ => runsOn_ascii]
  cases c <;> simp [EndsNumeral]

theorem IsNumeral.ascii (h : IsNumeral isFloat n) : ∀ b ∈ n, b.toNat < 0x80 :=
  fun _ hb => IsNumber.ascii h _ (List.mem_map_of_mem hb)

theorem isNumeral_iff : IsNumeral isFloat n ↔ IsNumber isFloat (codes (Source.plain n)) := by
  constructor
  · intro h
    have hcodes := codes_plain_append h.ascii []
    rw [List.append_nil, Source.plain_nil, codes_nil, List.append_nil] at hcodes
    rw [hcodes]
    exact h
  · intro h
    have hbytes : bytes (Source.plain n) = (codes (Source.plain n)).map UInt8.ofNat :=
      bytes_of_codes Source.faithful_plain rfl h.ascii
    rw [Source.bytes_plain] at hbytes
    have hcodes : Escape.codes n = codes (Source.plain n) := by
      conv_lhs => rw [hbytes]
      exact Escape.codes_ofNat h.ascii
    rw [IsNumeral, hcodes]
    exact h

theorem skip_eq_self {s : Source} (h : skipIgnored false s.chars = s.chars) : skip s = s := by
  rw [skip, h]

/-- A numeral with its end after it is read as a number. -/
theorem begins_of_isNumeral (hn : IsNumeral isFloat n) (hc : EndsNumeral c) :
    Reader.Begins (n ++ c) (.scalar (numberLiteral isFloat n)) := by
  -- The characters of the text are those of the numeral, byte by byte, and then those of the rest.
  have hplain : Source.unplaced (Source.ofText (n ++ c)).chars =
      n.map (fun b => ⟨b.toNat, [b], .origin⟩) ++ Source.plain c :=
    Source.plain_append_ascii hn.ascii c
  obtain ⟨as, rest, hchars, has, hrest⟩ := List.map_eq_append_iff.mp hplain
  have hcodes : codes as = Escape.codes n := by
    have hunplaced : codes (Source.unplaced as) = Escape.codes n := by
      rw [Source.unplaced, has, codes, List.map_map]
      rfl
    rw [← codes_unplaced, hunplaced]
  have hbytes : bytes as = n := by
    rw [← Source.bytes_unplaced, Source.unplaced, has]
    exact (List.flatMap_map ..).trans (List.flatMap_singleton' n)
  have hnumber : IsNumber isFloat (codes as) := hcodes ▸ hn
  have htoken : Lexeme (.scalar (numberLiteral isFloat n)) as :=
    lexeme_number_iff.mpr ⟨hnumber, hbytes⟩
  have hend : Ends (.scalar (numberLiteral isFloat n)) as rest := by
    rw [ends_number, ← comes_unplaced, Source.unplaced, hrest]
    exact endsNumeral_iff.mp hc
  have hskip : skip (Source.ofText (n ++ c)) = Source.ofText (n ++ c) := by
    apply skip_eq_self
    rw [hchars]
    exact htoken.skipIgnored_eq rest
  have hstep := next?_of_lexeme ((congrArg Source.chars hskip).trans hchars) htoken hend
  have hstart : (skip (Source.ofText (n ++ c))).position = .origin := by
    rw [hskip, Source.position_ofText]
  exact ⟨_, _, Reader.next_of_some hstep, rfl, hstart⟩

/-- What is read as a number is a numeral with its end after it. -/
theorem isNumeral_of_begins (h : Reader.Begins (n ++ c) (.scalar (numberLiteral isFloat n))) :
    IsNumeral isFloat n ∧ EndsNumeral c := by
  obtain ⟨a, r, hnext, hvalue, hstart⟩ := h
  obtain ⟨after, hstep, -⟩ := Reader.next_eq_some hnext (by rw [hvalue]; nofun)
  obtain ⟨taken, -, -, hend, -⟩ := next?_eq_some hstep
  obtain ⟨-, -, -, hslice, htoken, hafter⟩ := next?_remains (Source.remains_ofText _) hstep
  have hspelling : a.slice (n ++ c) = n := by
    rw [hslice, hvalue]
    exact numberLiteral_spelling isFloat n
  have hlength : a.span.stop.index = n.length := by
    have htake := congrArg List.length hspelling
    rw [Located.slice, hstart, Text.slice] at htake
    rw [← htake]
    exact (List.length_take_of_le hafter.le).symm
  constructor
  · rw [hspelling, hvalue] at htoken
    exact isNumeral_iff.mpr (lexeme_number_iff.mp htoken).1
  · have hplain := hafter.plain
    rw [hlength, List.drop_left] at hplain
    rw [endsNumeral_iff, hplain, comes_unplaced]
    rw [hvalue] at hend
    exact ends_number.mp hend

/-- Where a number has to begin, reading fails or a number is read. -/
theorem fails_or_begins_number {b : UInt8} (hb : CharClass.isNumberStart b.toNat = true)
    (rest : Text) : (∃ failure, (Reader.ofText (b :: rest)).next = .error failure) ∨
      ∃ isFloat n c, b :: rest = n ++ c ∧
        Reader.Begins (b :: rest) (.scalar (numberLiteral isFloat n)) := by
  have hascii : b.toNat < 0x80 := by
    simp only [CharClass.isNumberStart, CharClass.isDigit, Bool.or_eq_true, Bool.and_eq_true,
      beq_iff_eq, decide_eq_true_eq] at hb
    omega
  obtain ⟨first, more, hchars, hfirst, -⟩ :=
    List.map_eq_cons_iff.mp (Source.plain_ascii hascii rest)
  have hcode : first.code = b.toNat := congrArg SourceChar.code hfirst
  have hstarts : CharClass.isNumberStart first.code = true := hcode ▸ hb
  have hskip : skip (Source.ofText (b :: rest)) = Source.ofText (b :: rest) := by
    apply skip_eq_self
    rw [hchars]
    exact skipIgnored_of_startsToken (by rw [startsToken, hstarts, Bool.or_true]) more
  cases hstep : next? (Source.ofText (b :: rest)) with
  | error failure => exact .inl ⟨failure, Reader.next_of_error hstep⟩
  | ok read =>
    cases read with
    | none =>
      have hnil := next?_eq_none_iff.mp hstep
      rw [hskip, hchars] at hnil
      cases hnil
    | some read =>
      obtain ⟨a, after⟩ := read
      obtain ⟨taken, htaken, htoken, hend, hspan, -⟩ := next?_eq_some hstep
      rw [hskip, hchars] at htaken
      have hnumber : number (first :: more) = .ok (a.value, taken, after.chars) := by
        rw [← scan_number hstarts]
        exact htoken.scan_eq_ok hend htaken
      obtain ⟨-, -, isFloat, -, hvalue⟩ := number_eq_ok_iff.mp hnumber
      have hstart : a.span.start = (skip (Source.ofText (b :: rest))).position :=
        congrArg Span.start hspan
      rw [hskip, Source.position_ofText] at hstart
      have htext : b :: rest = bytes taken ++ bytes after.chars := by
        rw [← Source.bytes_append, ← htaken, ← hchars, Source.bytes_ofText]
      exact .inr ⟨isFloat, bytes taken, bytes after.chars, htext, a, _,
        Reader.next_of_some hstep, hvalue, hstart⟩

/-- A text begins with a number exactly if it begins with a numeral that ends there. The number is a
float exactly if the numeral has a fraction or an exponent. Where a number has to begin, reading
fails exactly if the text does not begin with any such numeral. -/
theorem Reader.begins_number :
    (∀ n c isFloat, Begins (n ++ c) (.scalar (numberLiteral isFloat n)) ↔
      IsNumeral isFloat n ∧ EndsNumeral c) ∧
    ∀ b rest, CharClass.isNumberStart b.toNat = true →
      ((∃ failure, (Reader.ofText (b :: rest)).next = .error failure) ↔
        ¬ ∃ isFloat n c, b :: rest = n ++ c ∧ IsNumeral isFloat n ∧ EndsNumeral c) := by
  constructor
  · intro n c isFloat
    exact ⟨isNumeral_of_begins, fun h => begins_of_isNumeral h.1 h.2⟩
  · intro b rest hb
    constructor
    · rintro ⟨failure, hfailure⟩ ⟨isFloat, n, c, htext, hn, hc⟩
      obtain ⟨a, r, hnext, -⟩ := begins_of_isNumeral hn hc
      rw [← htext, hfailure] at hnext
      cases hnext
    · intro hnone
      rcases fails_or_begins_number hb rest with hfails | ⟨isFloat, n, c, htext, hbegins⟩
      · exact hfails
      · rw [htext] at hbegins
        exact absurd ⟨isFloat, n, c, htext, isNumeral_of_begins hbegins⟩ hnone

namespace Reader

/-- A point without digits after it: no number begins `1.` or any part of it. -/
theorem not_begins_number_point : CharClass.isNumberStart (0x31 : UInt8).toNat = true ∧
    ¬ ∃ isFloat n c, 0x31 :: lit "." = n ++ c ∧ IsNumeral isFloat n ∧ EndsNumeral c := by
  have hstart : CharClass.isNumberStart (0x31 : UInt8).toNat = true := by decide
  have hfails : ∃ failure, (Reader.ofText (0x31 :: lit ".")).next = .error failure :=
    ⟨_, rfl⟩
  exact ⟨hstart, (begins_number.2 _ _ hstart).mp hfails⟩

end Reader

end Lexer

end GraphQL
