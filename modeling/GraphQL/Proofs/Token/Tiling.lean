import GraphQL.Proofs.Token.Reading

/-! Tokens tile their source: each covers exactly its own spelling, they follow one another, and
what lies between them is ignored text. No byte of any text is lost, be it well-formed or not. -/

namespace GraphQL

/-- Tokens that lie one after another in a text, from an offset on. -/
structure Tiling (t : Text) (first : Nat) (tokens : List (Located Token)) : Prop where
  /-- None of them marks the end. -/
  proper : ∀ a ∈ tokens, a.value ≠ .endOfFile
  filled : ∀ a ∈ tokens, a.span.start.index < a.span.stop.index
  inside : ∀ a ∈ tokens, first ≤ a.span.start.index ∧ a.span.stop.index ≤ t.length
  ordered : tokens.Pairwise fun a b => a.span.stop.index ≤ b.span.start.index
  /-- The bytes of a token are its symbol, name or number, or a string in its quotes. -/
  spelled : ∀ a ∈ tokens, a.slice t = a.value.spelling
  /-- Before each token, up to where the token before it stops, is ignored text. -/
  gaps : ∀ gap ∈ (first :: tokens.map (·.span.stop.index)).zip (tokens.map (·.span.start.index)),
    Lexer.IsBlank (t.slice gap.1 gap.2)

/-- Where the last token stops. -/
def reach (first : Nat) (tokens : List (Located Token)) : Nat :=
  ((tokens.map (·.span.stop.index)).getLast?).getD first

@[simp] theorem reach_nil (first : Nat) : reach first [] = first := rfl

@[simp] theorem reach_cons (first : Nat) (a : Located Token) (tokens : List (Located Token)) :
    reach first (a :: tokens) = reach a.span.stop.index tokens := by
  simp [reach, List.getLast?_cons]

theorem Tiling.nil (t : Text) (first : Nat) : Tiling t first [] :=
  ⟨List.forall_mem_nil _, List.forall_mem_nil _, List.forall_mem_nil _, .nil, List.forall_mem_nil _,
    List.forall_mem_nil _⟩

namespace Lexer

variable {t : Text} {n : Nat} {s after : Source} {a : Located Token}

/-- A reader that has come to offset `n` of a text and can go no further: past a gap there stands
something that is no token, or the text is at its end, which is told once. -/
def Reader.Closes (t : Text) (n : Nat) (r : Reader) : Prop :=
  match r.next with
  | .error _ =>
    let start := (skip r.rest).position.index
    n ≤ start ∧ start < t.length ∧ IsBlank (t.slice n start)
  | .ok (last, r') =>
    ∃ stop : Position, last = some ⟨.endOfFile, .empty stop⟩ ∧ stop.index = t.length ∧
      IsBlankToEnd (t.slice n t.length) ∧ r'.next = .ok (none, r')

theorem closes_of_error {failure : Failure} (h : s.Remains t n) (hnext : next? s = .error failure) :
    Reader.Closes t n ⟨s, false⟩ := by
  obtain ⟨hremains, hle, hblank, -⟩ := skip_remains h
  have hne := skip_ne_nil_of_error hnext
  rw [Reader.Closes, Reader.next_of_error hnext]
  exact ⟨hle, Nat.lt_of_le_of_ne hremains.le (mt (remains_nil_iff hremains).mpr hne), hblank hne⟩

theorem closes_of_none (h : s.Remains t n) (hnext : next? s = .ok none) :
    Reader.Closes t n ⟨s, false⟩ := by
  obtain ⟨hremains, -, -, hend⟩ := skip_remains h
  have hstop := (remains_nil_iff hremains).mp (next?_eq_none_iff.mp hnext)
  rw [Reader.Closes, Reader.next_of_none hnext]
  exact ⟨_, rfl, hstop, hstop ▸ hend, Reader.next_of_atEnd rfl⟩

/-- One token more at the front of a tiling. -/
theorem tiling_cons {tokens : List (Located Token)} (h : s.Remains t n)
    (hnext : next? s = .ok (some (a, after))) (htokens : Tiling t a.span.stop.index tokens) :
    Tiling t n (a :: tokens) := by
  obtain ⟨hle, hblank, hfilled, hspelled, -, hafter⟩ := next?_remains h hnext
  exact
    { proper := List.forall_mem_cons.mpr ⟨next?_not_endOfFile hnext, htokens.proper⟩
      filled := List.forall_mem_cons.mpr ⟨hfilled, htokens.filled⟩
      inside := List.forall_mem_cons.mpr ⟨⟨hle, hafter.le⟩, fun b hb =>
        ⟨hle.trans (hfilled.le.trans (htokens.inside b hb).1), (htokens.inside b hb).2⟩⟩
      ordered := List.pairwise_cons.mpr ⟨fun b hb => (htokens.inside b hb).1, htokens.ordered⟩
      spelled := List.forall_mem_cons.mpr ⟨hspelled, htokens.spelled⟩
      gaps := List.forall_mem_cons.mpr ⟨hblank, htokens.gaps⟩ }

/-- From any offset that reading has come to, the tokens to come tile the rest of the text. -/
theorem tiles_of_remains (h : s.Remains t n) : ∃ tokens r, Reader.Yields ⟨s, false⟩ tokens r ∧
    Tiling t n tokens ∧ Reader.Closes t (reach n tokens) r := by
  induction s using source_induction generalizing n with
  | failed s failure hnext => exact ⟨[], _, .nil _, .nil t n, closes_of_error h hnext⟩
  | ended s hnext => exact ⟨[], _, .nil _, .nil t n, closes_of_none h hnext⟩
  | token s a after hnext ih =>
    obtain ⟨-, -, -, -, -, hafter⟩ := next?_remains h hnext
    obtain ⟨tokens, r, hyields, htiling, hcloses⟩ := ih hafter
    exact ⟨a :: tokens, r, .cons (Reader.next_of_some hnext) hyields, tiling_cons h hnext htiling,
      (reach_cons n a tokens).symm ▸ hcloses⟩

/-- Whatever the bytes of a text, reading it gives tokens that tile it, up to its end or up to a
place where no token begins. -/
theorem Reader.tiles (t : Text) : ∃ tokens r, Reader.Yields (.ofText t) tokens r ∧
    Tiling t 0 tokens ∧ Reader.Closes t (reach 0 tokens) r :=
  tiles_of_remains (Source.remains_ofText t)

end Lexer

end GraphQL
