import GraphQL.Proofs.Token.Ignored
import GraphQL.Proofs.Token.Lexeme

/-! Reading a source token by token: what one step takes, where it leaves off, and that reading with
enough fuel is reading step by step. -/

namespace GraphQL

/-- The part of a text from one offset up to another. -/
def Text.slice (t : Text) (start stop : Nat) : Text := (t.take stop).drop start

/-- The part of a text that a token was read from. -/
def Located.slice {α : Type} (a : Located α) (t : Text) : Text :=
  t.slice a.span.start.index a.span.stop.index

namespace Source

/-- What is left of a text from offset `n` on. -/
structure Remains (t : Text) (n : Nat) (s : Source) : Prop where
  plain : Source.plain (t.drop n) = unplaced s.chars
  placed : Placed n s.chars s.stop
  le : n ≤ t.length

variable {t : Text} {n : Nat} {s : Source} {as bs : List SourceChar}

theorem remains_ofText (t : Text) : Remains t 0 (ofText t) :=
  ⟨rfl, placed_read 0 .origin t, Nat.zero_le _⟩

namespace Remains

theorem bytes (h : Remains t n s) : Source.bytes s.chars = t.drop n := by
  rw [← bytes_unplaced, ← h.plain, bytes_plain]

theorem index_position (h : Remains t n s) : s.position.index = n := h.placed.index_position

theorem faithful (h : Remains t n s) : ∀ c ∈ s.chars, c.Faithful := by
  intro c hc
  have hmem : c.unplaced ∈ Source.plain (t.drop n) := h.plain ▸ List.mem_map_of_mem hc
  exact faithful_plain c.unplaced hmem

/-- What is left after some characters, and what they are. -/
theorem drop (h : Remains t n s) (hs : s.chars = as ++ bs) :
    Remains t (n + (Source.bytes as).length) ⟨bs, s.stop⟩ ∧
      t.slice n (n + (Source.bytes as).length) = Source.bytes as ∧
      Source.plain (Source.bytes as) = unplaced as := by
  have hplain : Source.plain (t.drop n) = unplaced as ++ unplaced bs := by
    rw [h.plain, hs, unplaced_append]
  have hbytes : t.drop n = Source.bytes as ++ Source.bytes bs := by
    rw [← h.bytes, hs, bytes_append]
  refine ⟨⟨?_, ?_, ?_⟩, ?_, ?_⟩
  · rw [← List.drop_drop, ← bytes_unplaced as, plain_drop hplain]
  · exact (hs ▸ h.placed).tail
  · have hle := h.le
    have hlen := congrArg List.length hbytes
    rw [List.length_drop, List.length_append] at hlen
    omega
  · rw [Text.slice, List.drop_take, Nat.add_sub_cancel_left, hbytes, List.take_left' rfl]
  · rw [← bytes_unplaced as, plain_bytes hplain]

end Remains

end Source

namespace Lexer

open Source (bytes)

variable {t : Text} {n : Nat} {s after : Source} {a : Located Token}
  {cs as bs rest : List SourceChar} {token : Token}

/-- Codes that a token begins with. -/
def startsToken (c : Nat) : Bool :=
  isMark c || c == 0x2E || c == 0x22 || CharClass.isNameStart c || CharClass.isNumberStart c

theorem Lexeme.exists_cons (h : Lexeme token as) :
    ∃ c more, as = c :: more ∧ startsToken c.code = true := by
  cases h with
  | @mark c p hp =>
    exact ⟨c, [], rfl, by simp [startsToken, (punctuator?_spelling hp).1]⟩
  | ellipsis hdots =>
    obtain ⟨c, more, rfl, hc, -⟩ := List.map_eq_cons_iff.mp hdots
    exact ⟨c, more, rfl, by simp [startsToken, hc]⟩
  | @name c more hc =>
    exact ⟨c, more, rfl, by simp [startsToken, hc]⟩
  | number hnumber =>
    obtain ⟨d, more, hcodes, hd⟩ := hnumber.isNumberStart
    obtain ⟨c, more, rfl, rfl, -⟩ := List.map_eq_cons_iff.mp hcodes
    exact ⟨c, more, rfl, by simp [startsToken, hd]⟩
  | @string style opening inner closing hopening =>
    cases style
    all_goals
      obtain ⟨c, more, rfl, hc, -⟩ := List.map_eq_cons_iff.mp hopening
      exact ⟨c, more ++ (inner ++ closing), rfl, by simp [startsToken, hc]⟩

theorem Lexeme.ne_nil (h : Lexeme token as) : as ≠ [] := by
  obtain ⟨c, more, rfl, -⟩ := h.exists_cons
  exact List.cons_ne_nil c more

theorem numberLiteral_spelling (isFloat : Bool) (text : Text) :
    (numberLiteral isFloat text).spelling = text := by
  cases isFloat <;> rfl

theorem bytes_of_codes {ds : List Nat} (hcs : ∀ c ∈ cs, c.Faithful) (hcodes : codes cs = ds)
    (hds : ∀ d ∈ ds, d < 0x80) : bytes cs = ds.map UInt8.ofNat := by
  subst hcodes
  induction cs with
  | nil => rfl
  | cons c cs ih =>
    obtain ⟨hc, hcs⟩ := List.forall_mem_cons.mp hcs
    obtain ⟨hd, hds⟩ := List.forall_mem_cons.mp hds
    rw [Source.bytes_cons, hc.bytes_ascii hd, ih hcs hds]
    rfl

/-- A token's bytes are its spelling. -/
theorem Lexeme.bytes_eq (h : Lexeme token as) (has : ∀ c ∈ as, c.Faithful) :
    bytes as = token.spelling := by
  cases h with
  | @mark c p hp =>
    obtain ⟨hmark, hspelling⟩ := punctuator?_spelling hp
    have hascii : c.code < 0x80 := by
      simp only [isMark, List.mem_cons, List.not_mem_nil, or_false, decide_eq_true_eq] at hmark
      omega
    rw [Token.spelling, hspelling, Source.bytes_cons, Source.bytes_nil, List.append_nil,
      (has c List.mem_cons_self).bytes_ascii hascii]
  | ellipsis hdots =>
    rw [bytes_of_codes has hdots (by decide)]
    decide
  | name => rfl
  | number => exact (numberLiteral_spelling _ _).symm
  | @string style opening inner closing hopening _ hclosing =>
    rw [List.forall_mem_append, List.forall_mem_append] at has
    obtain ⟨hopen, -, hclose⟩ := has
    rw [Source.bytes_append, Source.bytes_append]
    cases style
    all_goals
      rw [bytes_of_codes hopen hopening (by decide), bytes_of_codes hclose hclosing (by decide),
        ← List.append_assoc]
      rfl

theorem next?_eq_none_iff : next? s = .ok none ↔ (skip s).chars = [] := by
  rw [next?]
  cases h : (skip s).chars with
  | nil => simp
  | cons c cs =>
    cases hscan : scan c cs with
    | error fault => simp [hscan]
    | ok taken => simp [hscan]

theorem skip_ne_nil_of_error {failure : Failure} (h : next? s = .error failure) :
    (skip s).chars ≠ [] := by
  rw [next?] at h
  rintro hnil
  rw [hnil] at h
  cases h

/-- One step takes a lexeme. -/
theorem next?_eq_some (h : next? s = .ok (some (a, after))) :
    ∃ taken, (skip s).chars = taken ++ after.chars ∧ Lexeme a.value taken ∧
      Ends a.value taken after.chars ∧ a.span = ⟨(skip s).position, after.position⟩ ∧
      after.stop = s.stop := by
  rw [next?] at h
  cases hskip : (skip s).chars with
  | nil => simp [hskip] at h
  | cons c cs =>
    cases hscan : scan c cs with
    | error fault => simp [hskip, hscan] at h
    | ok scanned =>
      obtain ⟨token, taken, rest⟩ := scanned
      simp only [hskip, hscan, Except.ok.injEq, Option.some.injEq, Prod.mk.injEq] at h
      obtain ⟨rfl, rfl⟩ := h
      obtain ⟨hcs, htoken, hend⟩ := scan_eq_ok_iff.mp hscan
      exact ⟨taken, hcs, htoken, hend, rfl, rfl⟩

/-- A lexeme that comes next is taken. -/
theorem next?_of_lexeme (hskip : (skip s).chars = as ++ rest) (htoken : Lexeme token as)
    (hend : Ends token as rest) : next? s =
      .ok (some (⟨token, ⟨(skip s).position, Source.position ⟨rest, s.stop⟩⟩⟩, ⟨rest, s.stop⟩)) := by
  obtain ⟨c, more, rfl, -⟩ := htoken.exists_cons
  have hscan : scan c (more ++ rest) = .ok (token, c :: more, rest) := htoken.scan_eq_ok hend rfl
  rw [List.cons_append] at hskip
  simp only [next?, hskip, hscan]

theorem skipIgnored_suffix (inComment : Bool) (cs : List SourceChar) :
    skipIgnored inComment cs <:+ cs := by
  fun_induction skipIgnored inComment cs with
  | case1 => exact List.suffix_rfl
  | case2 c cs ih => exact ih.trans (List.suffix_cons c cs)
  | case3 c cs _ ih => exact ih.trans (List.suffix_cons c cs)
  | case4 c cs _ _ ih => exact ih.trans (List.suffix_cons c cs)
  | case5 => exact List.suffix_rfl

theorem length_next?_lt (h : next? s = .ok (some (a, after))) :
    after.chars.length < s.chars.length := by
  obtain ⟨taken, hskip, htoken, -⟩ := next?_eq_some h
  have hlen := (skipIgnored_suffix false s.chars).length_le
  rw [show skipIgnored false s.chars = taken ++ after.chars from hskip, List.length_append] at hlen
  have := List.length_pos_iff.mpr htoken.ne_nil
  omega

theorem next?_of_nil (h : s.chars = []) : next? s = .ok none :=
  next?_eq_none_iff.mpr (by rw [skip, h]; rfl)

/-- Any two amounts of fuel that suffice give the same. -/
theorem readUpTo_congr {fuel fuel' : Nat} (h : s.chars.length ≤ fuel)
    (h' : s.chars.length ≤ fuel') : readUpTo fuel s = readUpTo fuel' s := by
  induction fuel generalizing fuel' s with
  | zero =>
    have hnone := next?_of_nil (List.length_eq_zero_iff.mp (Nat.le_zero.mp h))
    cases fuel' with
    | zero => rfl
    | succ fuel' => rw [readUpTo, readUpTo, hnone]
  | succ fuel ih =>
    cases fuel' with
    | zero =>
      have hnone := next?_of_nil (List.length_eq_zero_iff.mp (Nat.le_zero.mp h'))
      rw [readUpTo, readUpTo, hnone]
    | succ fuel' =>
      rw [readUpTo, readUpTo]
      cases hnext : next? s with
      | error failure => rfl
      | ok read =>
        cases read with
        | none => rfl
        | some read =>
          obtain ⟨a, after⟩ := read
          have hlt := length_next?_lt hnext
          have hafter : readUpTo fuel after = readUpTo fuel' after := ih (by omega) (by omega)
          simp only [hafter]

/-- A run takes its first step and runs on from there. -/
theorem run_eq (s : Source) : run s =
    match next? s with
    | .error failure => ⟨[], .error failure⟩
    | .ok none => ⟨[], .ok (skip s).position⟩
    | .ok (some (a, after)) => ⟨a :: (run after).tokens, (run after).ending⟩ := by
  rw [run, readUpTo_congr Nat.le.refl (Nat.le_succ s.chars.length), readUpTo]
  cases hnext : next? s with
  | error failure => rfl
  | ok read =>
    cases read with
    | none => rfl
    | some read =>
      obtain ⟨a, after⟩ := read
      simp only [run, readUpTo_congr (Nat.le_of_lt (length_next?_lt hnext)) Nat.le.refl]

/-- Sources are read token by token, up to their end or a failure. -/
theorem source_induction {motive : Source → Prop}
    (failed : ∀ s failure, next? s = .error failure → motive s)
    (ended : ∀ s, next? s = .ok none → motive s)
    (token : ∀ s a after, next? s = .ok (some (a, after)) → motive after → motive s)
    (s : Source) : motive s := by
  induction hn : s.chars.length using Nat.strongRecOn generalizing s with
  | ind n ih =>
    cases hnext : next? s with
    | error failure => exact failed s failure hnext
    | ok read =>
      cases read with
      | none => exact ended s hnext
      | some read =>
        obtain ⟨a, after⟩ := read
        exact token s a after hnext (ih _ (hn ▸ length_next?_lt hnext) after rfl)

/-- Skipping ignored text drops a gap, up to where the next token begins. -/
theorem skip_remains (h : s.Remains t n) :
    (skip s).Remains t (skip s).position.index ∧ n ≤ (skip s).position.index ∧
      ((skip s).chars ≠ [] → IsBlank (t.slice n (skip s).position.index)) ∧
      IsBlankToEnd (t.slice n (skip s).position.index) := by
  obtain ⟨gap, hgap, hblank, hend⟩ := skipIgnored_gap h.faithful
  obtain ⟨hremains, hslice, -⟩ := h.drop hgap
  have hskip : (skip s).Remains t (n + (bytes gap).length) := hremains
  rw [hskip.index_position, hslice]
  exact ⟨hremains, Nat.le_add_right _ _, hblank, hend⟩

/-- Nothing is left exactly at the end of the text. -/
theorem remains_nil_iff (h : s.Remains t n) : s.chars = [] ↔ n = t.length := by
  have hbytes := h.bytes
  refine ⟨fun hnil => ?_, fun hn => ?_⟩
  · rw [hnil, Source.bytes_nil, eq_comm, List.drop_eq_nil_iff] at hbytes
    exact Nat.le_antisymm h.le hbytes
  · rw [hn, List.drop_length] at hbytes
    by_contra hne
    obtain ⟨c, cs, hcs⟩ := List.exists_cons_of_ne_nil hne
    rw [hcs, Source.bytes_cons, List.append_eq_nil_iff] at hbytes
    exact (h.faithful c (hcs ▸ List.mem_cons_self)).bytes_ne_nil hbytes.1

theorem codes_unplaced (cs : List SourceChar) : codes (Source.unplaced cs) = codes cs :=
  List.map_map

theorem codes_congr (h : Source.unplaced as = Source.unplaced bs) : codes as = codes bs := by
  rw [← codes_unplaced as, h, codes_unplaced]

theorem bytes_congr (h : Source.unplaced as = Source.unplaced bs) : bytes as = bytes bs := by
  rw [← Source.bytes_unplaced as, h, Source.bytes_unplaced]

/-- A lexeme is one wherever it stands. -/
theorem Lexeme.congr (htoken : Lexeme token as) (h : Source.unplaced as = Source.unplaced bs) :
    Lexeme token bs := by
  cases htoken with
  | @mark c p hp =>
    obtain ⟨d, rfl, hd⟩ := List.map_eq_singleton_iff.mp h.symm
    have hcode : d.unplaced.code = c.unplaced.code := congrArg SourceChar.code hd
    exact .mark ((punctuator?_congr hcode).trans hp)
  | ellipsis hdots => exact .ellipsis (codes_congr h ▸ hdots)
  | @name c as hc hmore =>
    obtain ⟨d, bs, rfl, hd, hbs⟩ := List.map_eq_cons_iff.mp h.symm
    rw [bytes_congr h]
    refine .name ?_ (codes_congr hbs ▸ hmore)
    have hcode : d.unplaced.code = c.unplaced.code := congrArg SourceChar.code hd
    exact (congrArg CharClass.isNameStart hcode).trans hc
  | number hnumber =>
    rw [bytes_congr h]
    exact .number (codes_congr h ▸ hnumber)
  | string hopening hbody hclosing =>
    rw [Source.unplaced_append, Source.unplaced_append] at h
    obtain ⟨opening, bs, rfl, ho, hbs⟩ := List.map_eq_append_iff.mp h.symm
    obtain ⟨inner, closing, rfl, hi, hc⟩ := List.map_eq_append_iff.mp hbs
    rw [← bytes_congr hi]
    exact .string (codes_congr ho ▸ hopening) (codes_congr hi ▸ hbody) (codes_congr hc ▸ hclosing)

theorem Lexeme.unplaced (h : Lexeme token as) : Lexeme token (Source.unplaced as) :=
  h.congr (by rw [Source.unplaced, Source.unplaced, List.map_map]; rfl)

/-- What one step takes from a text: a gap, then the spelling of a token. -/
theorem next?_remains (h : s.Remains t n) (hnext : next? s = .ok (some (a, after))) :
    n ≤ a.span.start.index ∧ IsBlank (t.slice n a.span.start.index) ∧
      a.span.start.index < a.span.stop.index ∧ a.slice t = a.value.spelling ∧
      Lexeme a.value (Source.plain (a.slice t)) ∧ after.Remains t a.span.stop.index := by
  obtain ⟨taken, hskip, htoken, -, hspan, hstop⟩ := next?_eq_some hnext
  obtain ⟨hremains, hle, hblank, -⟩ := skip_remains h
  obtain ⟨hafter, hslice, hplain⟩ := hremains.drop hskip
  have hsource : (⟨after.chars, (skip s).stop⟩ : Source) = after := by rw [skip, ← hstop]
  rw [hsource] at hafter
  have htaken : ∀ c ∈ taken, c.Faithful := fun c hc =>
    hremains.faithful c (by rw [hskip]; exact List.mem_append_left _ hc)
  have hslice' : a.slice t = bytes taken := by
    rw [Located.slice, hspan, hafter.index_position, hslice]
  have hpos : 0 < (bytes taken).length := by
    obtain ⟨c, more, rfl, -⟩ := htoken.exists_cons
    rw [Source.bytes_cons, List.length_append]
    exact Nat.add_pos_left (List.length_pos_iff.mpr (htaken c List.mem_cons_self).bytes_ne_nil) _
  rw [hslice', hplain, hspan, hafter.index_position]
  refine ⟨hle, hblank ?_, Nat.lt_add_of_pos_right hpos, htoken.bytes_eq htaken, htoken.unplaced,
    hafter⟩
  rw [hskip]
  exact List.append_ne_nil_of_left_ne_nil htoken.ne_nil _

theorem next?_not_endOfFile (hnext : next? s = .ok (some (a, after))) : a.value ≠ .endOfFile := by
  obtain ⟨taken, -, htoken, -⟩ := next?_eq_some hnext
  intro h
  rw [h] at htoken
  cases htoken

namespace Reader

variable {r r' : Reader} {tokens : List (Located Token)}

theorem next_of_error {failure : Failure} (h : next? s = .error failure) :
    next ⟨s, false⟩ = .error failure := by
  simp [next, h]

theorem next_of_none (h : next? s = .ok none) :
    next ⟨s, false⟩ = .ok (some ⟨.endOfFile, .empty (skip s).position⟩, ⟨skip s, true⟩) := by
  simp [next, h]

theorem next_of_some (h : next? s = .ok (some (a, after))) :
    next ⟨s, false⟩ = .ok (some a, ⟨after, false⟩) := by
  simp [next, h]

theorem next_of_atEnd (h : r.atEnd = true) : r.next = .ok (none, r) := by
  rw [next, if_pos h]

/-- A token that a reader gives was the next one. -/
theorem next_eq_some (h : next ⟨s, false⟩ = .ok (some a, r)) (ha : a.value ≠ .endOfFile) :
    ∃ after, next? s = .ok (some (a, after)) ∧ r = ⟨after, false⟩ := by
  cases hnext : next? s with
  | error failure =>
    rw [next_of_error hnext] at h
    cases h
  | ok read =>
    cases read with
    | none =>
      rw [next_of_none hnext] at h
      cases h
      exact absurd rfl ha
    | some read =>
      obtain ⟨b, after⟩ := read
      rw [next_of_some hnext] at h
      cases h
      exact ⟨after, rfl, rfl⟩

/-- The tokens that a reader gives one after another, and the reader it is then. -/
inductive Yields : Reader → List (Located Token) → Reader → Prop
  | nil (r : Reader) : Yields r [] r
  | cons {r r' r'' : Reader} {a : Located Token} {tokens : List (Located Token)} :
      r.next = .ok (some a, r') → Yields r' tokens r'' → Yields r (a :: tokens) r''

/-- A reader gives these tokens, then the end of the file. -/
inductive Reads : Reader → List (Located Token) → Prop
  | nil {r r' : Reader} {span : Span} : r.next = .ok (some ⟨.endOfFile, span⟩, r') → Reads r []
  | cons {r r' : Reader} {a : Located Token} {tokens : List (Located Token)} :
      r.next = .ok (some a, r') → a.value ≠ .endOfFile → Reads r' tokens → Reads r (a :: tokens)

/-- Reading to the end is a run that ends. -/
theorem reads_iff_run : Reads ⟨s, false⟩ tokens ↔
    (run s).tokens = tokens ∧ ∃ stop, (run s).ending = .ok stop := by
  induction s using source_induction generalizing tokens with
  | failed s failure hnext =>
    rw [run_eq, hnext]
    refine ⟨fun h => ?_, fun ⟨_, _, h⟩ => nomatch h⟩
    cases h with
    | nil h => rw [next_of_error hnext] at h; cases h
    | cons h => rw [next_of_error hnext] at h; cases h
  | ended s hnext =>
    rw [run_eq, hnext]
    refine ⟨fun h => ?_, ?_⟩
    · cases h with
      | nil => exact ⟨rfl, _, rfl⟩
      | cons h hvalue =>
        rw [next_of_none hnext] at h
        cases h
        exact absurd rfl hvalue
    · rintro ⟨rfl, -⟩
      exact .nil (next_of_none hnext)
  | token s a after hnext ih =>
    rw [run_eq, hnext]
    refine ⟨fun h => ?_, ?_⟩
    · cases h with
      | nil h =>
        rw [next_of_some hnext] at h
        cases h
        exact absurd rfl (next?_not_endOfFile hnext)
      | cons h _ hrest =>
        rw [next_of_some hnext] at h
        cases h
        obtain ⟨rfl, hend⟩ := ih.mp hrest
        exact ⟨rfl, hend⟩
    · rintro ⟨rfl, hend⟩
      exact .cons (next_of_some hnext) (next?_not_endOfFile hnext) (ih.mpr ⟨rfl, hend⟩)

end Reader

end Lexer

end GraphQL
