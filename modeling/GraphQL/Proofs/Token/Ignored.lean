import GraphQL.Proofs.Source.Chars
import GraphQL.Proofs.Token.Numbers

/-! The text between tokens: single characters that mean nothing, and comments. Skipping takes such
text and no other, and takes all of it wherever it stands. -/

namespace GraphQL.Lexer

/-- Bytes of a comment, which ends its line. -/
def IsCommentText (t : Text) : Prop := ∀ b ∈ t, b ≠ 0x0A ∧ b ≠ 0x0D

/-- One piece of text that separates tokens: a tab, line feed, carriage return, space or comma, a
byte order mark, or a comment with the line terminator it runs to. -/
inductive IsSeparator : Text → Prop
  | char {b : UInt8} : b ∈ ([0x09, 0x0A, 0x0D, 0x20, 0x2C] : Text) → IsSeparator [b]
  | byteOrderMark : IsSeparator [0xEF, 0xBB, 0xBF]
  | comment {body : Text} {b : UInt8} : IsCommentText body → b = 0x0A ∨ b = 0x0D →
      IsSeparator (0x23 :: (body ++ [b]))

/-- Any number of separators. -/
def IsBlank (t : Text) : Prop :=
  ∃ parts : List Text, t = parts.flatten ∧ ∀ p ∈ parts, IsSeparator p

/-- Separators up to the end of a source, where a comment needs no line terminator. -/
def IsBlankToEnd (t : Text) : Prop :=
  ∃ blank tail, t = blank ++ tail ∧ IsBlank blank ∧
    (tail = [] ∨ ∃ body, tail = 0x23 :: body ∧ IsCommentText body)

theorem IsBlank.nil : IsBlank [] := ⟨[], rfl, fun _ h => nomatch h⟩

theorem IsBlank.cons {p t : Text} (hp : IsSeparator p) (ht : IsBlank t) : IsBlank (p ++ t) := by
  obtain ⟨parts, rfl, hparts⟩ := ht
  exact ⟨p :: parts, rfl, List.forall_mem_cons.mpr ⟨hp, hparts⟩⟩

theorem IsBlank.toEnd {t : Text} (h : IsBlank t) : IsBlankToEnd t :=
  ⟨t, [], (List.append_nil t).symm, h, .inl rfl⟩

theorem IsBlankToEnd.cons {p t : Text} (hp : IsSeparator p) (ht : IsBlankToEnd t) :
    IsBlankToEnd (p ++ t) := by
  obtain ⟨blank, tail, rfl, hblank, htail⟩ := ht
  exact ⟨p ++ blank, tail, (List.append_assoc _ _ _).symm, hblank.cons hp, htail⟩

variable {cs : List SourceChar}

theorem isSeparator_of_isIgnored {c : SourceChar} (h : c.Faithful)
    (hc : CharClass.isIgnored c.code = true) : IsSeparator c.bytes := by
  by_cases hmark : c.code = 0xFEFF
  · rcases h with ⟨-, hbytes⟩ | ⟨hcode, -⟩
    · rw [hbytes, hmark]
      exact .byteOrderMark
    · rw [hmark] at hcode
      cases hcode
  · have hcases : c.code = 0x09 ∨ c.code = 0x20 ∨ c.code = 0x0A ∨ c.code = 0x0D ∨
        c.code = 0x2C := by
      simp only [CharClass.isIgnored, CharClass.isLineTerminator, Bool.or_eq_true, beq_iff_eq] at hc
      omega
    rw [h.bytes_ascii (by omega)]
    refine .char ?_
    rcases hcases with h | h | h | h | h <;> rw [h] <;> decide

/-- A line terminator is one byte, and no other character has it. -/
theorem isCommentText_bytes (hcs : ∀ c ∈ cs, c.Faithful)
    (h : ∀ c ∈ cs, CharClass.isLineTerminator c.code = false) :
    IsCommentText (Source.bytes cs) := by
  intro b hb
  obtain ⟨c, hc, hb⟩ := List.mem_flatMap.mp hb
  by_cases hascii : c.code < 0x80
  · rw [(hcs c hc).bytes_ascii hascii, List.mem_singleton] at hb
    have hterm := h c hc
    simp only [CharClass.isLineTerminator, Bool.or_eq_false_iff, beq_eq_false_iff_ne] at hterm
    have hcode : b.toNat = c.code := by
      rw [hb, UInt8.toNat_ofNat']
      omega
    refine ⟨?_, ?_⟩ <;> rintro rfl
    · exact hterm.1 hcode.symm
    · exact hterm.2 hcode.symm
  · have hge := (hcs c hc).toNat_ge (Nat.le_of_not_lt hascii) hb
    refine ⟨?_, ?_⟩ <;> rintro rfl <;> exact absurd hge (by decide)

theorem skipIgnored_comment {body rest : List SourceChar} {term : SourceChar}
    (hbody : ∀ c ∈ body, CharClass.isLineTerminator c.code = false)
    (hterm : CharClass.isLineTerminator term.code = true) :
    skipIgnored true (body ++ term :: rest) = skipIgnored false rest := by
  induction body with
  | nil => rw [List.nil_append, skipIgnored, hterm]; rfl
  | cons c body ih =>
    obtain ⟨hc, hbody⟩ := List.forall_mem_cons.mp hbody
    rw [List.cons_append, skipIgnored, hc]
    exact ih hbody

theorem skipIgnored_unterminated (h : ∀ c ∈ cs, CharClass.isLineTerminator c.code = false) :
    skipIgnored true cs = [] := by
  induction cs with
  | nil => rfl
  | cons c cs ih =>
    obtain ⟨hc, hcs⟩ := List.forall_mem_cons.mp h
    rw [skipIgnored, hc]
    exact ih hcs

/-- A comment runs to the first line terminator, or to the end. -/
theorem exists_lineTerminator (cs : List SourceChar) :
    (∃ body term rest, cs = body ++ term :: rest ∧
      (∀ c ∈ body, CharClass.isLineTerminator c.code = false) ∧
      CharClass.isLineTerminator term.code = true) ∨
    ∀ c ∈ cs, CharClass.isLineTerminator c.code = false := by
  induction cs with
  | nil => exact .inr fun _ h => nomatch h
  | cons c cs ih =>
    by_cases hc : CharClass.isLineTerminator c.code = true
    · exact .inl ⟨[], c, cs, rfl, List.forall_mem_nil _, hc⟩
    · rw [Bool.not_eq_true] at hc
      rcases ih with ⟨body, term, rest, rfl, hbody, hterm⟩ | h
      · exact .inl ⟨c :: body, term, rest, rfl, List.forall_mem_cons.mpr ⟨hc, hbody⟩, hterm⟩
      · exact .inr (List.forall_mem_cons.mpr ⟨hc, h⟩)

theorem code_of_isLineTerminator {c : SourceChar} (h : CharClass.isLineTerminator c.code = true) :
    c.code = 0x0A ∨ c.code = 0x0D := by
  simpa [CharClass.isLineTerminator] using h

theorem isSeparator_comment {hash term : SourceChar} {body : List SourceChar}
    (hcs : ∀ c ∈ hash :: (body ++ [term]), c.Faithful) (hhash : hash.code = 0x23)
    (hbody : ∀ c ∈ body, CharClass.isLineTerminator c.code = false)
    (hterm : CharClass.isLineTerminator term.code = true) :
    IsSeparator (Source.bytes (hash :: (body ++ [term]))) := by
  obtain ⟨hfaithful, hcs⟩ := List.forall_mem_cons.mp hcs
  rw [List.forall_mem_append, List.forall_mem_singleton] at hcs
  have hterm := code_of_isLineTerminator hterm
  rw [Source.bytes_cons, Source.bytes_append, Source.bytes_cons, Source.bytes_nil, List.append_nil,
    hfaithful.bytes_ascii (by omega), hcs.2.bytes_ascii (by omega), hhash]
  refine .comment (isCommentText_bytes hcs.1 hbody) ?_
  rcases hterm with h | h <;> rw [h] <;> decide

/-- What skipping drops is blank. At the end of the source it may be a comment that no line
terminator ends. -/
theorem skipIgnored_gap (hcs : ∀ c ∈ cs, c.Faithful) :
    ∃ gap, cs = gap ++ skipIgnored false cs ∧
      (skipIgnored false cs ≠ [] → IsBlank (Source.bytes gap)) ∧
      IsBlankToEnd (Source.bytes gap) := by
  induction hn : cs.length using Nat.strongRecOn generalizing cs with
  | ind n ih =>
    cases cs with
    | nil => exact ⟨[], rfl, fun _ => .nil, IsBlank.nil.toEnd⟩
    | cons c cs =>
      have hc := (List.forall_mem_cons.mp hcs).1
      by_cases hhash : c.code = 0x23
      · have hskip : skipIgnored false (c :: cs) = skipIgnored true cs := by
          simp [skipIgnored, SourceChar.isChar, hhash]
        rw [hskip]
        rcases exists_lineTerminator cs with ⟨body, term, rest, rfl, hbody, hterm⟩ | hbody
        · rw [skipIgnored_comment hbody hterm]
          obtain ⟨gap, hgap, hblank, hend⟩ := ih rest.length
            (by rw [← hn, List.length_cons, List.length_append, List.length_cons]; omega)
            (fun d hd => hcs d (by simp [hd])) rfl
          have hsep : IsSeparator (Source.bytes (c :: (body ++ [term]))) :=
            isSeparator_comment (fun d hd => hcs d (by
              simp only [List.mem_cons, List.mem_append, List.not_mem_nil, or_false] at hd ⊢
              tauto)) hhash hbody hterm
          refine ⟨c :: (body ++ [term]) ++ gap, ?_, fun hne => ?_, ?_⟩
          · rw [List.append_assoc, ← hgap]
            simp
          · rw [Source.bytes_append]
            exact (hblank hne).cons hsep
          · rw [Source.bytes_append]
            exact hend.cons hsep
        · rw [skipIgnored_unterminated hbody]
          have hbytes : Source.bytes (c :: cs) = 0x23 :: Source.bytes cs := by
            rw [Source.bytes_cons, hc.bytes_ascii (by omega), hhash]
            rfl
          exact ⟨c :: cs, by simp, fun h => absurd rfl h, [], _, rfl, .nil, .inr ⟨_, hbytes,
            isCommentText_bytes (List.forall_mem_cons.mp hcs).2 hbody⟩⟩
      · have hopen : c.isChar '#' = false := beq_eq_false_iff_ne.mpr hhash
        by_cases hignored : CharClass.isIgnored c.code = true
        · have hskip : skipIgnored false (c :: cs) = skipIgnored false cs := by
            simp [skipIgnored, hopen, hignored]
          rw [hskip]
          obtain ⟨gap, hgap, hblank, hend⟩ := ih cs.length (by rw [← hn]; exact Nat.lt_succ_self _)
            (List.forall_mem_cons.mp hcs).2 rfl
          have hsep := isSeparator_of_isIgnored hc hignored
          exact ⟨c :: gap, by rw [List.cons_append, ← hgap],
            fun hne => (hblank hne).cons hsep, hend.cons hsep⟩
        · have hskip : skipIgnored false (c :: cs) = c :: cs := by
            simp [skipIgnored, hopen, hignored]
          rw [hskip]
          exact ⟨[], rfl, fun _ => .nil, IsBlank.nil.toEnd⟩

theorem skipIgnored_unplaced (inComment : Bool) (cs : List SourceChar) :
    skipIgnored inComment (Source.unplaced cs) = Source.unplaced (skipIgnored inComment cs) := by
  fun_induction skipIgnored inComment cs with
  | case1 => rfl
  | case2 c cs ih => exact ih
  | case3 c cs hc ih =>
    rw [Source.unplaced_cons, skipIgnored, if_pos (show c.unplaced.isChar '#' = true from hc)]
    exact ih
  | case4 c cs hc hignored ih =>
    rw [Source.unplaced_cons, skipIgnored, if_neg (show ¬ c.unplaced.isChar '#' = true from hc),
      if_pos (show CharClass.isIgnored c.unplaced.code = true from hignored)]
    exact ih
  | case5 c cs hc hignored =>
    rw [Source.unplaced_cons, skipIgnored, if_neg (show ¬ c.unplaced.isChar '#' = true from hc),
      if_neg (show ¬ CharClass.isIgnored c.unplaced.code = true from hignored)]

/-- Separators are skipped whatever they stand before. -/
theorem skipIgnored_separator {p : Text} (hp : IsSeparator p) (rest : Text) :
    skipIgnored false (Source.plain (p ++ rest)) = skipIgnored false (Source.plain rest) := by
  cases hp with
  | @char b hb =>
    have hcases : b = 0x09 ∨ b = 0x0A ∨ b = 0x0D ∨ b = 0x20 ∨ b = 0x2C := by simpa using hb
    have hascii : b.toNat < 0x80 := by rcases hcases with rfl | rfl | rfl | rfl | rfl <;> decide
    rw [List.singleton_append, Source.plain_ascii hascii]
    rcases hcases with rfl | rfl | rfl | rfl | rfl <;> rfl
  | byteOrderMark => rw [Source.plain_byteOrderMark]; rfl
  | @comment body b hbody hb =>
    have hascii : b.toNat < 0x80 := by rcases hb with rfl | rfl <;> decide
    have hfresh : Utf8.startsFresh (b :: rest) := by rcases hb with rfl | rfl <;> rfl
    rw [List.cons_append, List.append_assoc, List.singleton_append, Source.plain_ascii (by decide),
      Source.plain_append_fresh body hfresh, Source.plain_ascii hascii]
    refine skipIgnored_comment (fun c hc => Bool.eq_false_iff.mpr fun hterm => ?_) ?_
    · have hcode := code_of_isLineTerminator hterm
      have hbytes := (Source.faithful_plain c hc).bytes_ascii (by omega)
      have hmem : UInt8.ofNat c.code ∈ body := by
        rw [← Source.bytes_plain body]
        exact List.mem_flatMap.mpr ⟨c, hc, by simp [hbytes]⟩
      rcases hcode with h | h <;> rw [h] at hmem
      · exact (hbody _ hmem).1 rfl
      · exact (hbody _ hmem).2 rfl
    · rcases hb with rfl | rfl <;> rfl

theorem skipIgnored_blank {w : Text} (hw : IsBlank w) (rest : Text) :
    skipIgnored false (Source.plain (w ++ rest)) = skipIgnored false (Source.plain rest) := by
  obtain ⟨parts, rfl, hparts⟩ := hw
  induction parts with
  | nil => rfl
  | cons p parts ih =>
    obtain ⟨hp, hparts⟩ := List.forall_mem_cons.mp hparts
    rw [List.flatten_cons, List.append_assoc, skipIgnored_separator hp, ih hparts]

end GraphQL.Lexer
