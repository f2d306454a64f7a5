import GraphQL.Proofs.Source.Counting
import GraphQL.Proofs.Token.Faults

/-! Positions that reading a text tells of: where tokens begin and end, where a reader stands, and
where it fails. All of them are counted from the text. -/

namespace GraphQL

namespace Source

variable {t : Text} {s : Source} {cs : List SourceChar}

/-- What is left of a text: the last of its characters, where they stand in it. -/
structure IsLeft (t : Text) (s : Source) : Prop where
  chars : s.chars <:+ (ofText t).chars
  stop : s.stop = (ofText t).stop

theorem isLeft_ofText (t : Text) : (ofText t).IsLeft t := ⟨List.suffix_rfl, rfl⟩

namespace IsLeft

theorem mono (h : s.IsLeft t) (hcs : cs <:+ s.chars) : IsLeft t ⟨cs, s.stop⟩ :=
  ⟨hcs.trans h.chars, h.stop⟩

theorem faithful (h : s.IsLeft t) : ∀ c ∈ s.chars, c.Faithful := fun c hc =>
  faithful_read 0 .origin t c (h.chars.subset hc)

theorem isCounted_position (h : s.IsLeft t) : s.position.IsCounted t := by
  -- Only the position of the whole text is counted from its beginning; the others are among those
  -- that reading the text has given its characters.
  obtain ⟨hchars, hstop⟩ := follows_read (Position.follows_origin t) rfl
  have hposition : s.position.Follows t := by
    rw [position]
    cases hs : s.chars with
    | nil =>
      rw [h.stop]
      exact hstop
    | cons c cs => exact hchars c (h.chars.subset (hs ▸ List.mem_cons_self))
  exact hposition.isCounted

end IsLeft

end Source

/-- Both ends of a span are counted. -/
def Span.IsCounted (t : Text) (span : Span) : Prop :=
  span.start.IsCounted t ∧ span.stop.IsCounted t

namespace Lexer

variable {t : Text} {s after : Source} {a : Located Token} {failure : Failure} {p : Position}

theorem skip_isLeft (h : s.IsLeft t) : (skip s).IsLeft t := h.mono (skipIgnored_suffix false s.chars)

theorem next?_isLeft (h : s.IsLeft t) (hnext : next? s = .ok (some (a, after))) :
    a.span.IsCounted t ∧ after.IsLeft t := by
  obtain ⟨taken, hskip, -, -, hspan, hstop⟩ := next?_eq_some hnext
  have hstart := skip_isLeft h
  have hafter : Source.IsLeft t ⟨after.chars, s.stop⟩ :=
    hstart.mono (hskip ▸ List.suffix_append taken after.chars)
  rw [← hstop] at hafter
  rw [hspan]
  exact ⟨⟨hstart.isCounted_position, hafter.isCounted_position⟩, hafter⟩

theorem next?_error_isLeft (h : s.IsLeft t) (hnext : next? s = .error failure) :
    failure.error.span.IsCounted t ∧ failure.rest.IsLeft t := by
  obtain ⟨fault, hfault, rfl⟩ := next?_eq_error h.faithful hnext
  have hplace := (h.mono hfault.place).isCounted_position
  exact ⟨⟨hplace, hplace⟩, h.mono hfault.rest⟩

namespace Reader

variable {r : Reader}

/-- Positions that a reader tells of, one call after another: where it stands, where each token that
it gives begins and ends, and where it fails. It can be read on after a failure. -/
inductive Reports : Reader → Position → Prop
  | cursor (r : Reader) : Reports r r.rest.position
  | start {r r' : Reader} {a : Located Token} : r.next = .ok (some a, r') → Reports r a.span.start
  | stop {r r' : Reader} {a : Located Token} : r.next = .ok (some a, r') → Reports r a.span.stop
  | error {r : Reader} {failure : Failure} {p : Position} : r.next = .error failure →
      p = failure.error.span.start ∨ p = failure.error.span.stop → Reports r p
  | later {r r' : Reader} {told : Option (Located Token)} {p : Position} :
      r.next = .ok (told, r') → Reports r' p → Reports r p
  | resumed {r : Reader} {failure : Failure} {p : Position} : r.next = .error failure →
      Reports ⟨failure.rest, false⟩ p → Reports r p

/-- What comes of one call keeps to the text: spans are counted, and what is left is left of it. -/
def Keeps (t : Text) : Except Failure (Option (Located Token) × Reader) → Prop
  | .ok (told, r) => (∀ a ∈ told, a.span.IsCounted t) ∧ r.rest.IsLeft t
  | .error failure => failure.error.span.IsCounted t ∧ failure.rest.IsLeft t

theorem keeps_next {outcome : Except Failure (Option (Located Token) × Reader)}
    (h : r.rest.IsLeft t) (hnext : r.next = outcome) : Keeps t outcome := by
  subst hnext
  obtain ⟨s, atEnd⟩ := r
  cases atEnd with
  | true =>
    rw [next_of_atEnd rfl]
    exact ⟨nofun, h⟩
  | false =>
    cases hstep : next? s with
    | error failure =>
      rw [next_of_error hstep]
      exact next?_error_isLeft h hstep
    | ok read =>
      cases read with
      | none =>
        have hskip := skip_isLeft h
        have hstop := hskip.isCounted_position
        rw [next_of_none hstep]
        exact ⟨fun a ha => Option.some.inj ha ▸ ⟨hstop, hstop⟩, hskip⟩
      | some read =>
        obtain ⟨a, after⟩ := read
        obtain ⟨hspan, hafter⟩ := next?_isLeft h hstep
        rw [next_of_some hstep]
        exact ⟨fun b hb => Option.some.inj hb ▸ hspan, hafter⟩

/-- Whatever is told of what is left of a text is counted from the text. -/
theorem Reports.isCounted (h : Reports r p) (hr : r.rest.IsLeft t) : p.IsCounted t := by
  -- Whether a call succeeds or fails, what it leaves is left of the same text.
  induction h with
  | cursor r => exact hr.isCounted_position
  | start hnext => exact ((keeps_next hr hnext).1 _ rfl).1
  | stop hnext => exact ((keeps_next hr hnext).1 _ rfl).2
  | error hnext hp =>
    obtain ⟨hstart, hstop⟩ := (keeps_next hr hnext).1
    rcases hp with rfl | rfl
    · exact hstart
    · exact hstop
  | later hnext _ ih => exact ih (keeps_next hr hnext).2
  | resumed hnext _ ih => exact ih (keeps_next hr hnext).2

/-- Positions that reading a text tells of have as their line the number of line terminators before
them and as their column the number of characters since the last of those. -/
theorem isCounted_of_reports (h : Reports (.ofText t) p) : p.IsCounted t :=
  h.isCounted (Source.isLeft_ofText t)

/-- After a string that holds a longer character, and a line that ends with two bytes, a string
fails at a stray byte. -/
theorem isCounted_stray_byte :
    Reports (.ofText (lit "\"é\"\r\n\"" ++ [0xFF])) ⟨7, 1, 1⟩ ∧
      Position.IsCounted (lit "\"é\"\r\n\"" ++ [0xFF]) ⟨7, 1, 1⟩ := by
  have hfails : Reports (.ofText (lit "\"é\"\r\n\"" ++ [0xFF])) ⟨7, 1, 1⟩ :=
    .later rfl (.error rfl (.inl rfl))
  exact ⟨hfails, isCounted_of_reports hfails⟩

end Reader

end Lexer

end GraphQL
