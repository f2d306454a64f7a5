import GraphQL.Parser.Tokens
import GraphQL.Proofs.Token.Reading

/-! Positions in their order: by offset, then line, then column. The tokens of a text stand one
after another in it, each with something in its span. -/

namespace GraphQL

namespace Position

instance : LE Position := leOfOrd

instance : LT Position := ltOfOrd

variable {p q r : Position}

theorem lt_iff : p < q ↔ p.index < q.index ∨
    p.index = q.index ∧ (p.line < q.line ∨ p.line = q.line ∧ p.column < q.column) := by
  show ((compare p.index q.index).then
    ((compare p.line q.line).then (compare p.column q.column))) = .lt ↔ _
  simp only [Ordering.then_eq_lt, Nat.compare_eq_lt, Nat.compare_eq_eq]

theorem eq_of_compare (h : compare p q = .eq) : p = q := by
  have hparts : (compare p.index q.index).then
      ((compare p.line q.line).then (compare p.column q.column)) = .eq := h
  simp only [Ordering.then_eq_eq, Nat.compare_eq_eq] at hparts
  obtain ⟨hindex, hline, hcolumn⟩ := hparts
  cases p
  cases q
  congr

theorem le_iff : p ≤ q ↔ p < q ∨ p = q := by
  have hle : p ≤ q ↔ (compare p q).isLE = true := Iff.rfl
  have hlt : p < q ↔ compare p q = .lt := Iff.rfl
  rw [hle, hlt]
  constructor
  · intro h
    cases hcompare : compare p q with
    | lt => exact .inl rfl
    | eq => exact .inr (eq_of_compare hcompare)
    | gt => simp [hcompare] at h
  · rintro (h | rfl)
    · rw [h]
      rfl
    · have hsame : compare p p = .eq := by
        show (compare p.index p.index).then _ = _
        simp
      rw [hsame]
      rfl

theorem le_refl (p : Position) : p ≤ p := le_iff.mpr (.inr rfl)

theorem lt_of_index_lt (h : p.index < q.index) : p < q := lt_iff.mpr (.inl h)

theorem lt_trans (hpq : p < q) (hqr : q < r) : p < r := by
  rw [lt_iff] at *
  omega

theorem le_of_lt (h : p < q) : p ≤ q := le_iff.mpr (.inl h)

theorem lt_of_le_of_lt (hpq : p ≤ q) (hqr : q < r) : p < r := by
  rcases le_iff.mp hpq with hlt | rfl
  · exact lt_trans hlt hqr
  · exact hqr

theorem lt_of_lt_of_le (hpq : p < q) (hqr : q ≤ r) : p < r := by
  rcases le_iff.mp hqr with hlt | rfl
  · exact lt_trans hpq hlt
  · exact hpq

theorem le_trans (hpq : p ≤ q) (hqr : q ≤ r) : p ≤ r := by
  rcases le_iff.mp hpq with hlt | rfl
  · exact le_of_lt (lt_of_lt_of_le hlt hqr)
  · exact hqr

end Position

/-- Tokens that stand one after another, each with something in its span. -/
structure InOrder (ts : List (Located Token)) : Prop where
  filled : ∀ a ∈ ts, a.span.start < a.span.stop
  ordered : ts.Pairwise fun a b => a.span.stop ≤ b.span.start

namespace Lexer

variable {t : Text} {n : Nat} {s : Source}

/-- The next token is looked for from where the source stands on. -/
theorem position_le_skip (h : s.Remains t n) : s.position ≤ (skip s).position := by
  have hskip : (skip s).chars <:+ s.chars := skipIgnored_suffix false s.chars
  obtain ⟨gap, hgap⟩ := hskip
  cases gap with
  | nil =>
    have hsame : skip s = s := by
      have hchars : (skip s).chars = s.chars := hgap
      have hstop : (skip s).stop = s.stop := rfl
      cases hs : skip s
      cases s
      rw [hs] at hchars hstop
      simp only at hchars hstop
      rw [hchars, hstop]
    rw [hsame]
    exact Position.le_refl _
  | cons c gap =>
    obtain ⟨hremains, -⟩ := h.drop hgap.symm
    have hindex : (skip s).position.index = n + (Source.bytes (c :: gap)).length :=
      Source.Remains.index_position hremains
    have hc : c.bytes ≠ [] := (h.faithful c (hgap ▸ List.mem_cons_self)).bytes_ne_nil
    have hpos : 0 < (Source.bytes (c :: gap)).length := by
      rw [Source.bytes_cons, List.length_append]
      exact Nat.add_pos_left (List.length_pos_iff.mpr hc) _
    apply Position.le_of_lt
    apply Position.lt_of_index_lt
    rw [hindex, h.index_position]
    omega

/-- Reading goes forward: no token starts before the source it is read from. -/
theorem run_inOrder (h : s.Remains t n) :
    (∀ a ∈ (run s).tokens, s.position ≤ a.span.start) ∧ InOrder (run s).tokens := by
  induction s using source_induction generalizing n with
  | failed s failure hnext =>
    rw [run_eq, hnext]
    exact ⟨List.forall_mem_nil _, List.forall_mem_nil _, .nil⟩
  | ended s hnext =>
    rw [run_eq, hnext]
    exact ⟨List.forall_mem_nil _, List.forall_mem_nil _, .nil⟩
  | token s a after hnext ih =>
    obtain ⟨-, -, hfilled, -, -, hafter⟩ := next?_remains h hnext
    obtain ⟨taken, -, -, -, hspan, -⟩ := next?_eq_some hnext
    obtain ⟨hlater, horder⟩ := ih hafter
    have hstart : a.span.start = (skip s).position := congrArg Span.start hspan
    have hstop : a.span.stop = after.position := congrArg Span.stop hspan
    have hlt : a.span.start < a.span.stop := Position.lt_of_index_lt hfilled
    have hfirst : s.position ≤ a.span.start := hstart ▸ position_le_skip h
    have hrest : ∀ b ∈ (run after).tokens, a.span.stop ≤ b.span.start := by
      rw [hstop]
      exact hlater
    have hrun : (run s).tokens = a :: (run after).tokens := by rw [run_eq, hnext]
    rw [hrun]
    constructor
    · refine List.forall_mem_cons.mpr ⟨hfirst, fun b hb => ?_⟩
      have hbefore : s.position < a.span.stop := Position.lt_of_le_of_lt hfirst hlt
      exact Position.le_of_lt (Position.lt_of_lt_of_le hbefore (hrest b hb))
    · constructor
      · exact List.forall_mem_cons.mpr ⟨hlt, horder.filled⟩
      · exact List.pairwise_cons.mpr ⟨hrest, horder.ordered⟩

end Lexer

/-- The tokens of a text come in the order of their spans. -/
theorem Tokens.ofText_inOrder {t : Text} {tokens : Tokens} (h : Tokens.ofText t = .ok tokens) :
    InOrder tokens.pending := by
  unfold Tokens.ofText Tokens.ofSource at h
  simp only at h
  split at h
  · cases h
    exact (Lexer.run_inOrder (Source.remains_ofText t)).2
  · cases h

end GraphQL
