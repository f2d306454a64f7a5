import GraphQL.Proofs.Source.Chars
import GraphQL.Proofs.Token.Strings

/-! What each token is written with, and what may come right after it. A token is read off a source
exactly when the source begins with such characters; nothing beyond the character after them is
looked at. -/

namespace GraphQL

/-- The text a token stands for in a source. -/
def Literal.spelling : Literal → Text
  | .int digits => digits
  | .float digits => digits
  | .string .quoted body => lit "\"" ++ body ++ lit "\""
  | .string .block body => lit "\"\"\"" ++ body ++ lit "\"\"\""

def Token.spelling : Token → Text
  | .name text => text
  | .scalar literal => literal.spelling
  | .mark p => p.toText
  | .endOfFile => []

namespace Lexer

variable {cs as rest : List SourceChar} {token : Token}

/-- The codes around a string. -/
def delimiter : StringStyle → List Nat
  | .quoted => [0x22]
  | .block => quotes

def IsBody : StringStyle → List Nat → Prop
  | .quoted => IsQuoted
  | .block => IsBlock

/-- The characters a token is written with. -/
inductive Lexeme : Token → List SourceChar → Prop
  | mark {c : SourceChar} {p : Punctuator} : punctuator? c = some p → Lexeme (.mark p) [c]
  | ellipsis {as : List SourceChar} : codes as = [0x2E, 0x2E, 0x2E] → Lexeme (.mark .ellipsis) as
  | name {c : SourceChar} {as : List SourceChar} : CharClass.isNameStart c.code = true →
      (∀ d ∈ codes as, CharClass.isNameContinue d = true) →
      Lexeme (.name (Source.bytes (c :: as))) (c :: as)
  | number {isFloat : Bool} {as : List SourceChar} : IsNumber isFloat (codes as) →
      Lexeme (.scalar (numberLiteral isFloat (Source.bytes as))) as
  | string {style : StringStyle} {opening body closing : List SourceChar} :
      codes opening = delimiter style → IsBody style (codes body) →
      codes closing = delimiter style →
      Lexeme (.scalar (.string style (Source.bytes body))) (opening ++ (body ++ closing))

/-- What must not come after a token: a character it would go on with. An empty string must not have
a third quote after it. -/
def Ends : Token → (taken rest : List SourceChar) → Prop
  | .name _, _, rest => comes CharClass.isNameContinue rest = false
  | .scalar (.string _ _), taken, rest =>
    codes taken = [0x22, 0x22] → comes (· == 0x22) rest = false
  | .scalar _, _, rest => comes runsOn rest = false
  | _, _, _ => True

theorem ends_number {isFloat : Bool} {text : Text} :
    Ends (.scalar (numberLiteral isFloat text)) as rest ↔ comes runsOn rest = false := by
  cases isFloat <;> rfl

/-- A number is written with a numeral. -/
theorem lexeme_number_iff {isFloat : Bool} {text : Text} :
    Lexeme (.scalar (numberLiteral isFloat text)) as ↔
      IsNumber isFloat (codes as) ∧ Source.bytes as = text := by
  constructor
  · intro h
    generalize htoken : Token.scalar (numberLiteral isFloat text) = token at h
    cases h with
    | mark => cases htoken
    | ellipsis => cases htoken
    | name => cases htoken
    | string => cases isFloat <;> cases htoken
    | @number isFloat' _ hnumber =>
      cases isFloat
      all_goals
        cases isFloat'
      all_goals
        cases htoken
      all_goals exact ⟨hnumber, rfl⟩
  · rintro ⟨hnumber, rfl⟩
    exact .number hnumber

/-- A string is written between delimiters. -/
theorem lexeme_string_iff {style : StringStyle} {text : Text} :
    Lexeme (.scalar (.string style text)) as ↔ ∃ opening body closing,
      as = opening ++ (body ++ closing) ∧ codes opening = delimiter style ∧
        IsBody style (codes body) ∧ codes closing = delimiter style ∧ Source.bytes body = text := by
  constructor
  · intro h
    generalize htoken : Token.scalar (.string style text) = token at h
    cases h with
    | mark => cases htoken
    | ellipsis => cases htoken
    | name => cases htoken
    | @number isFloat => cases isFloat <;> cases htoken
    | @string style opening body closing hopening hbody hclosing =>
      cases htoken
      exact ⟨opening, body, closing, rfl, hopening, hbody, hclosing, rfl⟩
  · rintro ⟨opening, body, closing, rfl, hopening, hbody, hclosing, rfl⟩
    exact .string hopening hbody hclosing

/-- The characters that are tokens alone. -/
def isMark (c : Nat) : Bool :=
  c ∈ [0x21, 0x24, 0x28, 0x29, 0x5B, 0x5D, 0x7B, 0x7D, 0x3A, 0x3D, 0x40, 0x7C]

theorem punctuator?_spelling {c : SourceChar} {p : Punctuator} (h : punctuator? c = some p) :
    isMark c.code = true ∧ p.toText = [UInt8.ofNat c.code] := by
  revert h
  fun_cases punctuator? c
  all_goals
    intro h
    cases h
  all_goals
    rename_i hc
    rw [eq_of_beq hc]
    decide

theorem punctuator?_congr {c d : SourceChar} (h : c.code = d.code) :
    punctuator? c = punctuator? d := by
  obtain ⟨code, bytes, position⟩ := c
  cases h
  rfl

theorem punctuator?_eq_none {c : SourceChar} (h : isMark c.code = false) :
    punctuator? c = none := by
  cases hp : punctuator? c with
  | none => rfl
  | some p =>
    rw [(punctuator?_spelling hp).1] at h
    cases h

theorem not_isMark_of_isNameStart {c : Nat} (h : CharClass.isNameStart c = true) :
    isMark c = false := by
  simp only [CharClass.isNameStart, CharClass.isLetter, Bool.or_eq_true, beq_iff_eq,
    Bool.and_eq_true, decide_eq_true_eq] at h
  simp only [isMark, List.mem_cons, List.not_mem_nil, or_false, decide_eq_false_iff_not]
  omega

theorem not_isMark_of_isNumberStart {c : Nat} (h : CharClass.isNumberStart c = true) :
    isMark c = false := by
  simp only [CharClass.isNumberStart, CharClass.isDigit, Bool.or_eq_true, beq_iff_eq,
    Bool.and_eq_true, decide_eq_true_eq] at h
  simp only [isMark, List.mem_cons, List.not_mem_nil, or_false, decide_eq_false_iff_not]
  omega

theorem not_isNameStart_of_isNumberStart {c : Nat} (h : CharClass.isNumberStart c = true) :
    CharClass.isNameStart c = false := by
  simp only [CharClass.isNumberStart, CharClass.isDigit, Bool.or_eq_true, beq_iff_eq,
    Bool.and_eq_true, decide_eq_true_eq] at h
  simp only [CharClass.isNameStart, CharClass.isLetter, Bool.or_eq_false_iff, Bool.and_eq_false_iff,
    decide_eq_false_iff_not, beq_eq_false_iff_ne]
  omega

theorem not_isChar {c : SourceChar} {a : Char} (h : c.code ≠ a.toNat) : c.isChar a = false :=
  beq_eq_false_iff_ne.mpr h

theorem scan_mark {c : SourceChar} {p : Punctuator} (h : punctuator? c = some p) :
    scan c cs = .ok (.mark p, [c], cs) := by
  rw [scan, h]

theorem scan_dot {c : SourceChar} (h : c.code = 0x2E) : scan c cs = ellipsis (c :: cs) := by
  rw [scan, punctuator?_eq_none (by rw [h]; rfl)]
  exact if_pos (by simp [SourceChar.isChar, h])

theorem scan_quote {c : SourceChar} (h : c.code = 0x22) : scan c cs = string (c :: cs) := by
  rw [scan, punctuator?_eq_none (by rw [h]; rfl)]
  simp [SourceChar.isChar, h]

theorem scan_name {c : SourceChar} (h : CharClass.isNameStart c.code = true) :
    scan c cs = name (c :: cs) := by
  have hdot : c.code ≠ '.'.toNat := fun hc => by rw [hc] at h; cases h
  have hquote : c.code ≠ '"'.toNat := fun hc => by rw [hc] at h; cases h
  rw [scan, punctuator?_eq_none (not_isMark_of_isNameStart h)]
  simp only [not_isChar hdot, not_isChar hquote, h, Bool.false_eq_true, if_false, if_true]

theorem scan_number {c : SourceChar} (h : CharClass.isNumberStart c.code = true) :
    scan c cs = number (c :: cs) := by
  have hdot : c.code ≠ '.'.toNat := fun hc => by rw [hc] at h; cases h
  have hquote : c.code ≠ '"'.toNat := fun hc => by rw [hc] at h; cases h
  rw [scan, punctuator?_eq_none (not_isMark_of_isNumberStart h)]
  simp only [not_isChar hdot, not_isChar hquote, h, not_isNameStart_of_isNumberStart h,
    Bool.false_eq_true, if_false, if_true]

/-- A character that begins no token. -/
theorem scan_unknown {c : SourceChar} (hmark : punctuator? c = none) (hdot : c.code ≠ 0x2E)
    (hquote : c.code ≠ 0x22) (hname : CharClass.isNameStart c.code = false)
    (hnumber : CharClass.isNumberStart c.code = false) :
    scan c cs = failAt (.unknownCharacter c.code) (c :: cs) := by
  have hdot' : c.isChar '.' = false := not_isChar hdot
  have hquote' : c.isChar '"' = false := not_isChar hquote
  rw [scan, hmark]
  simp only [hdot', hquote', hname, hnumber, Bool.false_eq_true, if_false]

theorem ellipsis_go_eq_ok_iff {n : Nat} : ellipsis.go as n cs = .ok (token, taken, rest) ↔
    token = .mark .ellipsis ∧ taken = as.take 3 ∧
      ∃ dots, cs = dots ++ rest ∧ codes dots = List.replicate n 0x2E := by
  induction n generalizing cs with
  | zero =>
    simp only [ellipsis.go, Except.ok.injEq, Prod.mk.injEq, List.replicate_zero, codes_eq_nil_iff]
    constructor
    · rintro ⟨htoken, htaken, rfl⟩
      exact ⟨htoken.symm, htaken.symm, [], rfl, rfl⟩
    · rintro ⟨htoken, htaken, dots, rfl, rfl⟩
      exact ⟨htoken.symm, htaken.symm, rfl⟩
  | succ n ih =>
    cases cs with
    | nil =>
      simp only [ellipsis.go, failAt, reduceCtorEq, List.nil_eq_append_iff, false_iff]
      rintro ⟨-, -, dots, ⟨rfl, rfl⟩, h⟩
      cases h
    | cons c cs =>
      by_cases hc : c.code = 0x2E
      · have hchar : c.isChar '.' = true := by simp [SourceChar.isChar, hc]
        rw [ellipsis.go, if_pos hchar, ih]
        refine and_congr_right fun _ => and_congr_right fun _ => ⟨?_, ?_⟩
        · rintro ⟨dots, rfl, h⟩
          exact ⟨c :: dots, rfl, by rw [codes_cons, h, hc]; rfl⟩
        · rintro ⟨dots, h, hdots⟩
          obtain ⟨d, dots, rfl, -, hdots'⟩ := List.map_eq_cons_iff.mp hdots
          rw [List.cons_append, List.cons.injEq] at h
          exact ⟨dots, h.2, hdots'⟩
      · have hchar : c.isChar '.' = false := not_isChar hc
        rw [ellipsis.go, hchar]
        simp only [Bool.false_eq_true, if_false, reduceCtorEq, false_iff]
        rintro ⟨-, -, dots, h, hdots⟩
        obtain ⟨d, dots, rfl, hd, -⟩ := List.map_eq_cons_iff.mp hdots
        rw [List.cons_append, List.cons.injEq] at h
        exact hc (h.1 ▸ hd)

theorem ellipsis_eq_ok_iff : ellipsis cs = .ok (token, as, rest) ↔
    cs = as ++ rest ∧ codes as = [0x2E, 0x2E, 0x2E] ∧ token = .mark .ellipsis := by
  rw [ellipsis, ellipsis_go_eq_ok_iff]
  have htake {dots : List SourceChar} (h : codes dots = List.replicate 3 0x2E) :
      (dots ++ rest).take 3 = dots :=
    List.take_left' (by simpa [codes] using congrArg List.length h)
  refine ⟨?_, ?_⟩
  · rintro ⟨rfl, rfl, dots, rfl, h⟩
    rw [htake h]
    exact ⟨rfl, h, rfl⟩
  · rintro ⟨rfl, h, rfl⟩
    exact ⟨rfl, (htake h).symm, as, rfl, h⟩

theorem name_eq_ok_iff : name cs = .ok (token, as, rest) ↔
    cs = as ++ rest ∧ (∀ d ∈ codes as, CharClass.isNameContinue d = true) ∧
      comes CharClass.isNameContinue rest = false ∧ token = .name (Source.bytes as) := by
  simp only [name, Except.ok.injEq, Prod.mk.injEq]
  refine ⟨?_, ?_⟩
  · rintro ⟨rfl, rfl, rfl⟩
    obtain ⟨h, has, hrest⟩ := (@span_eq_iff cs _ _ CharClass.isNameContinue).mp rfl
    exact ⟨h, has, hrest, rfl⟩
  · rintro ⟨h, has, hrest, rfl⟩
    rw [span_eq_iff.mpr ⟨h, has, hrest⟩]
    exact ⟨rfl, rfl, rfl⟩

theorem quote_prefix_iff : [0x22] <+: codes cs ↔ comes (· == 0x22) cs = true := by
  cases cs with
  | nil => simp
  | cons c cs =>
    rw [codes_cons, List.cons_prefix_cons, comes_cons, beq_iff_eq]
    exact ⟨fun h => h.1.symm, fun h => ⟨h.symm, List.nil_prefix⟩⟩

/-- A string between delimiters of a style, when its body ends where the closing one comes first. -/
theorem delimited_eq_ok_iff {style : StringStyle} {body : List SourceChar → Scan}
    {opening : List SourceChar} (hopening : codes opening = delimiter style)
    (hbody : ∀ {cs as rest}, body cs = .ok (as, rest) ↔
      cs = as ++ rest ∧ IsBody style (codes as) ∧ delimiter style <+: codes rest) :
    delimited style (delimiter style).length body (opening ++ cs) = .ok (token, as, rest) ↔
      ∃ inner closing, cs = inner ++ (closing ++ rest) ∧ IsBody style (codes inner) ∧
        codes closing = delimiter style ∧ as = opening ++ (inner ++ closing) ∧
        token = .scalar (.string style (Source.bytes inner)) := by
  have hwidth {ds : List SourceChar} (h : codes ds = delimiter style) :
      ds.length = (delimiter style).length := by
    rw [← h, codes, List.length_map]
  rw [delimited, List.drop_left' (hwidth hopening), List.take_left' (hwidth hopening)]
  simp only [bind_eq_ok_iff, Prod.exists, Except.ok.injEq, Prod.mk.injEq, hbody]
  refine ⟨?_, ?_⟩
  · rintro ⟨inner, after, ⟨rfl, hinner, hafter⟩, rfl, rfl, rfl⟩
    obtain ⟨closing, rest, rfl, hclosing⟩ := exists_append_of_isPrefixOf hafter
    refine ⟨inner, closing, ?_, hinner, hclosing, ?_, rfl⟩
    · rw [List.drop_left' (hwidth hclosing)]
    · rw [List.take_left' (hwidth hclosing), List.append_assoc]
  · rintro ⟨inner, closing, rfl, hinner, hclosing, rfl, rfl⟩
    refine ⟨inner, closing ++ rest, ⟨rfl, hinner, ?_⟩, rfl, ?_, ?_⟩
    · rw [codes_append, hclosing]
      exact List.prefix_append _ _
    · rw [List.take_left' (hwidth hclosing), List.append_assoc]
    · rw [List.drop_left' (hwidth hclosing)]

theorem IsQuoted.not_quote {as : List SourceChar} (h : IsQuoted (codes as)) (hne : as ≠ []) :
    Lexer.comes (· == 0x22) (as ++ rest) = false := by
  cases as with
  | nil => exact absurd rfl hne
  | cons a as =>
    generalize hcodes : codes (a :: as) = body at h
    rw [List.cons_append, comes_cons, beq_eq_false_iff_ne]
    cases h with
    | nil => cases hcodes
    | char hchar =>
      rw [codes_cons, List.cons.injEq] at hcodes
      rw [hcodes.1]
      rintro rfl
      cases hchar
    | escape =>
      rw [codes_cons, List.cons.injEq] at hcodes
      rw [hcodes.1]
      decide

/-- A quoted string does not begin with three quotes, unless it is empty and a quote follows. -/
theorem not_prefix_quotes {opening inner closing : List SourceChar}
    (hopening : codes opening = [0x22]) (hinner : IsQuoted (codes inner))
    (hclosing : codes closing = [0x22])
    (hend : codes (opening ++ (inner ++ closing)) = [0x22, 0x22] → comes (· == 0x22) rest = false) :
    ¬ quotes <+: codes (opening ++ (inner ++ (closing ++ rest))) := by
  intro hquotes
  rw [codes_append, hopening] at hquotes
  have htwo : [0x22, 0x22] <+: codes (inner ++ (closing ++ rest)) :=
    (List.cons_prefix_cons.mp hquotes).2
  by_cases hnil : inner = []
  · subst hnil
    rw [List.nil_append, codes_append, hclosing] at htwo
    have hone : [0x22] <+: codes rest := (List.cons_prefix_cons.mp htwo).2
    rw [quote_prefix_iff, hend (by simp [hopening, hclosing])] at hone
    cases hone
  · have hone : [0x22] <+: codes (inner ++ (closing ++ rest)) :=
      (List.prefix_append [0x22] [0x22]).trans htwo
    rw [quote_prefix_iff, hinner.not_quote hnil] at hone
    cases hone

theorem string_eq_ok_iff (hcs : comes (· == 0x22) cs = true) : string cs = .ok (token, as, rest) ↔
    ∃ style opening inner closing, cs = opening ++ (inner ++ (closing ++ rest)) ∧
      codes opening = delimiter style ∧ IsBody style (codes inner) ∧
      codes closing = delimiter style ∧ as = opening ++ (inner ++ closing) ∧
      token = .scalar (.string style (Source.bytes inner)) ∧ Ends token as rest := by
  have hquotedBody {cs as rest : List SourceChar} : quotedBody 0 cs = .ok (as, rest) ↔
      cs = as ++ rest ∧ IsBody .quoted (codes as) ∧ delimiter .quoted <+: codes rest :=
    quotedBody_eq_ok_iff.trans (by rw [← quote_prefix_iff]; rfl)
  by_cases hquotes : quotes <+: codes cs
  · obtain ⟨opening, after, rfl, hopening⟩ := exists_append_of_isPrefixOf hquotes
    rw [string, if_pos (startsWith_tripleQuote.mpr hquotes)]
    refine (@delimited_eq_ok_iff after as rest token .block (blockBody 0) opening hopening
      blockBody_eq_ok_iff).trans ⟨?_, ?_⟩
    · rintro ⟨inner, closing, rfl, hinner, hclosing, rfl, rfl⟩
      refine ⟨.block, opening, inner, closing, rfl, hopening, hinner, hclosing, rfl, rfl, ?_⟩
      intro h
      rw [codes_append, hopening] at h
      cases h
    · rintro ⟨style, opening', inner, closing, h, hopening', hinner, hclosing, rfl, rfl, hend⟩
      cases style with
      | quoted =>
        rw [h] at hquotes
        exact absurd hquotes (not_prefix_quotes hopening' hinner hclosing hend)
      | block =>
        have hlen : opening.length = opening'.length := by
          rw [← List.length_map (f := SourceChar.code), ← List.length_map (f := SourceChar.code)]
          exact congrArg List.length (hopening.trans hopening'.symm)
        obtain ⟨rfl, rfl⟩ := List.append_inj h hlen
        exact ⟨inner, closing, rfl, hinner, hclosing, rfl, rfl⟩
  · cases cs with
    | nil => cases hcs
    | cons q after =>
      have hopening : codes [q] = delimiter .quoted := by simpa [delimiter] using hcs
      rw [string, if_neg (mt startsWith_tripleQuote.mp hquotes)]
      refine (@delimited_eq_ok_iff after as rest token .quoted (quotedBody 0) [q] hopening
        hquotedBody).trans ⟨?_, ?_⟩
      · rintro ⟨inner, closing, rfl, hinner, hclosing, rfl, rfl⟩
        refine ⟨.quoted, [q], inner, closing, rfl, hopening, hinner, hclosing, rfl, rfl, ?_⟩
        intro h
        refine Bool.eq_false_iff.mpr fun hrest => hquotes ?_
        have hall : codes (q :: (inner ++ (closing ++ rest))) =
            codes ([q] ++ (inner ++ closing)) ++ codes rest := by simp
        rw [hall, h]
        exact (List.prefix_append_right_inj [0x22, 0x22]).mpr (quote_prefix_iff.mpr hrest)
      · rintro ⟨style, opening, inner, closing, h, hopening', hinner, hclosing, rfl, rfl, hend⟩
        cases style with
        | quoted =>
          obtain ⟨q', rfl, -⟩ := List.map_eq_singleton_iff.mp hopening'
          rw [List.cons_append, List.cons.injEq] at h
          obtain ⟨rfl, rfl⟩ := h
          exact ⟨inner, closing, rfl, hinner, hclosing, rfl, rfl⟩
        | block =>
          refine absurd ?_ hquotes
          rw [h, codes_append, hopening']
          exact List.prefix_append _ _

theorem isNameContinue_of_isNameStart {c : Nat} (h : CharClass.isNameStart c = true) :
    CharClass.isNameContinue c = true := by
  rw [CharClass.isNameContinue, h, Bool.true_or]

/-- A number begins with a sign or a digit. -/
theorem IsNumber.isNumberStart {isFloat : Bool} {ds : List Nat} (h : IsNumber isFloat ds) :
    ∃ d more, ds = d :: more ∧ CharClass.isNumberStart d = true := by
  obtain ⟨sign, whole, fraction, exponent, rfl, hsign, hwhole, -⟩ := h
  rcases hsign with rfl | rfl
  · rcases hwhole with rfl | ⟨⟨hne, hdigits⟩, -⟩
    · exact ⟨_, _, rfl, rfl⟩
    · obtain ⟨d, more, rfl⟩ := List.exists_cons_of_ne_nil hne
      refine ⟨d, _, rfl, ?_⟩
      rw [CharClass.isNumberStart, hdigits d List.mem_cons_self, Bool.or_true]
  · exact ⟨_, _, rfl, rfl⟩

/-- What the first character of a lexeme decides. -/
theorem Lexeme.scan_eq_ok {c : SourceChar} (htoken : Lexeme token as) (hend : Ends token as rest)
    (h : c :: cs = as ++ rest) : scan c cs = .ok (token, as, rest) := by
  cases htoken with
  | mark hp =>
    cases h
    exact scan_mark hp
  | ellipsis hdots =>
    obtain ⟨d, dots, rfl, hd, -⟩ := List.map_eq_cons_iff.mp hdots
    obtain ⟨rfl, rfl⟩ := List.cons.inj h
    rw [scan_dot hd]
    exact ellipsis_eq_ok_iff.mpr ⟨rfl, hdots, rfl⟩
  | name hstart hmore =>
    obtain ⟨rfl, rfl⟩ := List.cons.inj h
    rw [scan_name hstart]
    exact name_eq_ok_iff.mpr ⟨rfl,
      List.forall_mem_cons.mpr ⟨isNameContinue_of_isNameStart hstart, hmore⟩, hend, rfl⟩
  | @number isFloat _ hnumber =>
    obtain ⟨d, more, hcodes, hd⟩ := hnumber.isNumberStart
    obtain ⟨a, as, rfl, rfl, -⟩ := List.map_eq_cons_iff.mp hcodes
    obtain ⟨rfl, rfl⟩ := List.cons.inj h
    rw [scan_number hd]
    exact number_eq_ok_iff.mpr ⟨rfl, ends_number.mp hend, isFloat, hnumber, rfl⟩
  | @string style opening inner closing hopening hinner hclosing =>
    have hquote : comes (· == 0x22) (c :: cs) = true := by
      rw [h, List.append_assoc, ← quote_prefix_iff, codes_append, hopening]
      refine List.IsPrefix.trans ?_ (List.prefix_append (delimiter style) _)
      cases style
      · exact List.prefix_rfl
      · exact List.prefix_append [0x22] [0x22, 0x22]
    have hc : c.code = 0x22 := by simpa using hquote
    rw [scan_quote hc]
    refine (string_eq_ok_iff hquote).mpr ⟨style, opening, inner, closing, ?_, hopening, hinner,
      hclosing, rfl, rfl, hend⟩
    rw [h]
    simp only [List.append_assoc]

/-- The scanner reads exactly the lexemes. -/
theorem scan_eq_ok_iff {c : SourceChar} : scan c cs = .ok (token, as, rest) ↔
    c :: cs = as ++ rest ∧ Lexeme token as ∧ Ends token as rest := by
  refine ⟨fun h => ?_, fun ⟨h, htoken, hend⟩ => htoken.scan_eq_ok hend h⟩
  cases hp : punctuator? c with
  | some p =>
    rw [scan_mark hp] at h
    cases h
    exact ⟨rfl, .mark hp, trivial⟩
  | none =>
    by_cases hdot : c.code = 0x2E
    · rw [scan_dot hdot] at h
      obtain ⟨hcs, hdots, rfl⟩ := ellipsis_eq_ok_iff.mp h
      exact ⟨hcs, .ellipsis hdots, trivial⟩
    · by_cases hquote : c.code = 0x22
      · rw [scan_quote hquote] at h
        obtain ⟨style, opening, inner, closing, hcs, hopening, hinner, hclosing, rfl, rfl, hend⟩ :=
          (string_eq_ok_iff (by simp [hquote])).mp h
        exact ⟨by rw [hcs]; simp only [List.append_assoc], .string hopening hinner hclosing, hend⟩
      · by_cases hname : CharClass.isNameStart c.code = true
        · rw [scan_name hname] at h
          obtain ⟨hcs, hmore, hend, rfl⟩ := name_eq_ok_iff.mp h
          cases as with
          | nil =>
            rw [← show c :: cs = rest from hcs, comes_cons,
              isNameContinue_of_isNameStart hname] at hend
            cases hend
          | cons a as =>
            obtain ⟨rfl, rfl⟩ := List.cons.inj hcs
            exact ⟨rfl, .name hname (List.forall_mem_cons.mp hmore).2, hend⟩
        · by_cases hnumber : CharClass.isNumberStart c.code = true
          · rw [scan_number hnumber] at h
            obtain ⟨hcs, hend, isFloat, hnumber, rfl⟩ := number_eq_ok_iff.mp h
            exact ⟨hcs, .number hnumber, ends_number.mpr hend⟩
          · rw [scan_unknown hp hdot hquote (by simpa using hname) (by simpa using hnumber)] at h
            cases h

end Lexer

end GraphQL
