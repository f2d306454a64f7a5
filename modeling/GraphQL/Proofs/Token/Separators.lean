import GraphQL.Proofs.Token.Reading

/-! Ignored text between tokens never matters. Tokens are cut out of a text that reads without error
and set again with other separators between them: what is read is the same. -/

namespace GraphQL.Lexer

variable {t w rest : Text} {n : Nat} {s : Source} {cs as bs : List SourceChar} {token : Token}
  {values : List Token}

/-- Characters that split into tokens, whatever their places: ignored text, a lexeme that ends where
the next characters begin, and so on. -/
inductive Lexes : List SourceChar → List Token → Prop
  | nil {cs : List SourceChar} : skipIgnored false cs = [] → Lexes cs []
  | cons {cs as rest : List SourceChar} {token : Token} {values : List Token} :
      skipIgnored false cs = as ++ rest → Lexeme token as → Ends token as rest →
      Lexes rest values → Lexes cs (token :: values)

theorem comes_unplaced (p : Nat → Bool) (cs : List SourceChar) :
    comes p (Source.unplaced cs) = comes p cs := by
  cases cs <;> rfl

theorem Ends.congr {rest rest' : List SourceChar} (h : Ends token as rest)
    (has : codes as = codes bs) (hrest : ∀ p, comes p rest = comes p rest') :
    Ends token bs rest' := by
  cases token with
  | name text => exact (hrest _).symm.trans h
  | mark p => trivial
  | endOfFile => trivial
  | scalar literal =>
    cases literal with
    | int digits => exact (hrest _).symm.trans h
    | float digits => exact (hrest _).symm.trans h
    | string style body => exact fun hbs => (hrest _).symm.trans (h (has.trans hbs))

/-- Places do not matter. -/
theorem Lexes.of_unplaced {ds : List SourceChar} (h : Lexes ds values)
    (hds : ds = Source.unplaced cs) : Lexes cs values := by
  induction h generalizing cs with
  | nil hskip =>
    rw [hds, skipIgnored_unplaced] at hskip
    exact .nil (List.map_eq_nil_iff.mp hskip)
  | cons hskip htoken hend _ ih =>
    rw [hds, skipIgnored_unplaced] at hskip
    obtain ⟨as, rest, hcs, rfl, rfl⟩ := List.map_eq_append_iff.mp hskip
    refine .cons hcs (htoken.congr ?_)
      (hend.congr (codes_unplaced as) fun p => comes_unplaced p rest) (ih rfl)
    rw [Source.unplaced, Source.unplaced, List.map_map]
    rfl

/-- Characters that split into tokens are read as those tokens. -/
theorem Lexes.reads (h : Lexes cs values) (stop : Position) :
    ∃ tokens, Reader.Reads ⟨⟨cs, stop⟩, false⟩ tokens ∧ tokens.map (·.value) = values := by
  induction h with
  | nil hskip => exact ⟨[], .nil (Reader.next_of_none (next?_eq_none_iff.mpr hskip)), rfl⟩
  | @cons cs as rest token values hskip htoken hend _ ih =>
    obtain ⟨tokens, hreads, rfl⟩ := ih
    have hnext := next?_of_lexeme (s := ⟨cs, stop⟩) hskip htoken hend
    exact ⟨_ :: tokens, .cons (Reader.next_of_some hnext) (next?_not_endOfFile hnext) hreads, rfl⟩

/-- What separators begin with. -/
def startsBlank (c : Nat) : Bool := CharClass.isIgnored c || c == 0x23

theorem IsSeparator.first (h : IsSeparator w) (rest : Text) :
    Utf8.startsFresh (w ++ rest) = true ∧
      ∃ c more, Source.plain (w ++ rest) = c :: more ∧ startsBlank c.code = true := by
  cases h with
  | @char b hb =>
    have hcases : b = 0x09 ∨ b = 0x0A ∨ b = 0x0D ∨ b = 0x20 ∨ b = 0x2C := by simpa using hb
    rcases hcases with rfl | rfl | rfl | rfl | rfl
    all_goals
      exact ⟨rfl, _, _, Source.plain_ascii (by decide) rest, rfl⟩
  | byteOrderMark => exact ⟨rfl, _, _, Source.plain_byteOrderMark rest, rfl⟩
  | comment => exact ⟨rfl, _, _, Source.plain_ascii (by decide) _, rfl⟩

theorem IsBlank.first (h : IsBlank w) (hne : w ≠ []) (rest : Text) :
    Utf8.startsFresh (w ++ rest) = true ∧
      ∃ c more, Source.plain (w ++ rest) = c :: more ∧ startsBlank c.code = true := by
  obtain ⟨parts, rfl, hparts⟩ := h
  cases parts with
  | nil => exact absurd rfl hne
  | cons p parts =>
    rw [List.flatten_cons, List.append_assoc]
    exact (hparts p List.mem_cons_self).first _

/-- A separator never goes on with a token. -/
theorem not_runsOn_of_startsBlank {c : Nat} (h : startsBlank c = true) :
    runsOn c = false ∧ CharClass.isNameContinue c = false ∧ c ≠ 0x22 := by
  simp only [startsBlank, CharClass.isIgnored, CharClass.isLineTerminator, Bool.or_eq_true,
    beq_iff_eq] at h
  simp only [runsOn, CharClass.isNameContinue, CharClass.isNameStart, CharClass.isLetter,
    CharClass.isDigit, Bool.or_eq_false_iff, Bool.and_eq_false_iff, beq_eq_false_iff_ne,
    decide_eq_false_iff_not]
  omega

/-- What goes on with no token may come after any. -/
theorem ends_of_not_runsOn {c : SourceChar} {more : List SourceChar} (h : runsOn c.code = false ∧
    CharClass.isNameContinue c.code = false ∧ c.code ≠ 0x22) : Ends token as (c :: more) := by
  obtain ⟨hruns, hname, hquote⟩ := h
  cases token with
  | name text => exact hname
  | mark p => trivial
  | endOfFile => trivial
  | scalar literal =>
    cases literal with
    | int digits => exact hruns
    | float digits => exact hruns
    | string style body => exact fun _ => beq_eq_false_iff_ne.mpr hquote

theorem ends_of_startsBlank {c : SourceChar} {more : List SourceChar}
    (h : startsBlank c.code = true) : Ends token as (c :: more) :=
  ends_of_not_runsOn (not_runsOn_of_startsBlank h)

theorem ends_nil : Ends token as [] := by
  cases token with
  | scalar literal => cases literal <;> first | rfl | exact fun _ => rfl
  | _ => first | rfl | trivial

/-- A token ends before a separator, and at the end of a text. -/
theorem ends_blank (hw : IsBlank w) (hlast : w = [] → rest = []) :
    Utf8.startsFresh (w ++ rest) = true ∧ Ends token as (Source.plain (w ++ rest)) := by
  by_cases hne : w = []
  · subst hne
    rw [hlast rfl]
    exact ⟨rfl, ends_nil⟩
  · obtain ⟨hfresh, c, more, hplain, hc⟩ := hw.first hne rest
    exact ⟨hfresh, hplain ▸ ends_of_startsBlank hc⟩

/-- What begins a token is not skipped. -/
theorem skipIgnored_of_startsToken {c : SourceChar} (hc : startsToken c.code = true)
    (cs : List SourceChar) : skipIgnored false (c :: cs) = c :: cs := by
  have hblank : c.code ≠ 0x23 ∧ CharClass.isIgnored c.code = false := by
    simp only [startsToken, isMark, List.mem_cons, List.not_mem_nil, or_false, decide_eq_true_eq,
      CharClass.isNameStart, CharClass.isNumberStart, CharClass.isLetter, CharClass.isDigit,
      Bool.or_eq_true, Bool.and_eq_true, beq_iff_eq] at hc
    simp only [CharClass.isIgnored, CharClass.isLineTerminator, Bool.or_eq_false_iff,
      beq_eq_false_iff_ne]
    omega
  have hopen : c.isChar '#' = false := beq_eq_false_iff_ne.mpr hblank.1
  rw [skipIgnored, hopen, hblank.2]
  rfl

theorem Lexeme.skipIgnored_eq (h : Lexeme token as) (cs : List SourceChar) :
    skipIgnored false (as ++ cs) = as ++ cs := by
  obtain ⟨c, more, rfl, hc⟩ := h.exists_cons
  exact skipIgnored_of_startsToken hc (more ++ cs)

/-- Tokens in the text they were read from, each with the text that is to follow it. -/
abbrev Parts := List (Located Token × Text)

/-- The tokens' parts of the text `t`, each with the text that is to follow it. -/
def Parts.text (t : Text) (parts : Parts) : Text := parts.flatMap fun p => p.1.slice t ++ p.2

theorem lexes_respaced {parts : Parts} (hw : IsBlank w) (hblank : ∀ p ∈ parts, IsBlank p.2)
    (hsep : ∀ p ∈ parts.dropLast, p.2 ≠ [])
    (htokens : ∀ p ∈ parts, Lexeme p.1.value (Source.plain (p.1.slice t))) :
    Lexes (Source.plain (w ++ parts.text t)) (parts.map (·.1.value)) := by
  induction parts generalizing w with
  | nil => exact .nil (skipIgnored_blank hw [])
  | cons p parts ih =>
    obtain ⟨hpblank, hblank⟩ := List.forall_mem_cons.mp hblank
    obtain ⟨htoken, htokens⟩ := List.forall_mem_cons.mp htokens
    have hlast : p.2 = [] → Parts.text t parts = [] := by
      intro hnil
      cases parts with
      | nil => rfl
      | cons q parts => exact absurd hnil (hsep p List.mem_cons_self)
    have hsep' : ∀ q ∈ parts.dropLast, q.2 ≠ [] := by
      cases parts with
      | nil => exact List.forall_mem_nil _
      | cons q parts => exact fun r hr => hsep r (List.mem_cons_of_mem _ hr)
    obtain ⟨hfresh, hend⟩ : Utf8.startsFresh (p.2 ++ Parts.text t parts) = true ∧
        Ends p.1.value (Source.plain (p.1.slice t)) (Source.plain (p.2 ++ Parts.text t parts)) :=
      ends_blank hpblank hlast
    have htext : Parts.text t (p :: parts) = p.1.slice t ++ (p.2 ++ Parts.text t parts) :=
      List.append_assoc _ _ _
    refine .cons ?_ htoken hend (ih hpblank hblank hsep' htokens)
    rw [skipIgnored_blank hw, htext, Source.plain_append_fresh _ hfresh, htoken.skipIgnored_eq]

/-- What was read as a token is a lexeme by itself. -/
theorem Reader.Reads.lexeme {tokens : List (Located Token)} (h : Reader.Reads ⟨s, false⟩ tokens)
    (hs : s.Remains t n) : ∀ a ∈ tokens, Lexeme a.value (Source.plain (a.slice t)) := by
  induction s using source_induction generalizing n tokens with
  | failed s failure hnext =>
    cases h with
    | nil => exact List.forall_mem_nil _
    | cons h => rw [next_of_error hnext] at h; cases h
  | ended s hnext =>
    cases h with
    | nil => exact List.forall_mem_nil _
    | cons h hvalue =>
      rw [next_of_none hnext] at h
      cases h
      exact absurd rfl hvalue
  | token s a after hnext ih =>
    cases h with
    | nil => exact List.forall_mem_nil _
    | cons h _ hrest =>
      rw [next_of_some hnext] at h
      cases h
      obtain ⟨-, -, -, -, htoken, hafter⟩ := next?_remains hs hnext
      exact List.forall_mem_cons.mpr ⟨htoken, ih hrest hafter⟩

/-- A text that reads without error reads the same with its tokens set apart by any other
separators, as long as there is something between each two of them. -/
theorem Reader.reads_respaced {tokens : List (Located Token)} (h : Reads (.ofText t) tokens)
    (hw : IsBlank w) {parts : Parts} (hparts : parts.map (·.1) = tokens)
    (hblank : ∀ p ∈ parts, IsBlank p.2) (hsep : ∀ p ∈ parts.dropLast, p.2 ≠ []) :
    ∃ tokens', Reads (.ofText (w ++ parts.text t)) tokens' ∧
      tokens'.map (·.value) = tokens.map (·.value) := by
  have hlexemes := h.lexeme (Source.remains_ofText t)
  have hlexes := lexes_respaced hw hblank hsep fun p hp =>
    hlexemes p.1 (hparts ▸ List.mem_map_of_mem hp)
  obtain ⟨tokens', hreads, hvalues⟩ := (hlexes.of_unplaced rfl).reads (Source.ofText _).stop
  refine ⟨tokens', hreads, ?_⟩
  rw [hvalues, ← hparts, List.map_map]
  rfl

namespace Pair

/-- A name, a colon and an empty string with nothing between them. -/
def source : Text := lit "a:\"\""

def tokens : List (Located Token) :=
  [⟨.name (lit "a"), ⟨⟨0, 0, 0⟩, ⟨1, 0, 1⟩⟩⟩, ⟨.mark .colon, ⟨⟨1, 0, 1⟩, ⟨2, 0, 2⟩⟩⟩,
    ⟨.scalar (.string .quoted []), ⟨⟨2, 0, 2⟩, ⟨4, 0, 4⟩⟩⟩]

/-- A comment after the name and a comma after the colon. -/
def parts : Parts := tokens.zip [lit "#!\n", lit ",", []]

theorem reads_source : Reader.Reads (.ofText source) tokens :=
  Reader.reads_iff_run.mpr ⟨by decide, ⟨4, 0, 4⟩, rfl⟩

theorem isBlank_parts : ∀ p ∈ parts, IsBlank p.2 := by
  have hcomment : IsBlank (lit "#!\n") :=
    have hbody : IsCommentText [0x21] := by simp [IsCommentText]
    IsBlank.cons (.comment hbody (.inl rfl)) .nil
  have hcomma : IsBlank (lit ",") := IsBlank.cons (IsSeparator.char (by decide)) .nil
  simp only [parts, tokens, List.zip_cons_cons, List.zip_nil_right, List.forall_mem_cons,
    List.not_mem_nil, false_implies, implies_true, and_true]
  exact ⟨hcomment, hcomma, .nil⟩

theorem reads_respaced_pair : Reader.Reads (.ofText source) tokens ∧ IsBlank [] ∧
    parts.map (·.1) = tokens ∧ (∀ p ∈ parts, IsBlank p.2) ∧ (∀ p ∈ parts.dropLast, p.2 ≠ []) ∧
    ∃ tokens', Reader.Reads (.ofText ([] ++ parts.text source)) tokens' ∧
      tokens'.map (·.value) = tokens.map (·.value) :=
  have hsep : ∀ p ∈ parts.dropLast, p.2 ≠ [] := by decide
  ⟨reads_source, .nil, rfl, isBlank_parts, hsep,
    Reader.reads_respaced reads_source .nil rfl isBlank_parts hsep⟩

end Pair

end GraphQL.Lexer
