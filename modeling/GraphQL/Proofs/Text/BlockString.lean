import GraphQL.Proofs.Text.Characters
import GraphQL.Text.BlockString

/-! Block strings: the lines a text is cut into, and what is left of them in the value. The value is
written with characters of the body and line feeds. -/

namespace GraphQL

open Utf8 (Spells)

namespace BlockString

variable {p : Nat → Prop} {t rest : Text}

theorem lines_ne_nil (t : Text) : lines t ≠ [] := by
  fun_induction lines t with
  | case1 => exact List.cons_ne_nil _ _
  | case2 => exact List.cons_ne_nil _ _
  | case3 => exact List.cons_ne_nil _ _
  | case4 => exact List.cons_ne_nil _ _
  | case5 b rest =>
    cases lines rest <;> exact List.cons_ne_nil _ _

theorem lines_cons {b : UInt8} (hfeed : b ≠ 0x0A) (hreturn : b ≠ 0x0D) (rest : Text) :
    lines (b :: rest) = consLine b (lines rest) := by
  rw [lines]
  · exact hfeed
  · exact fun _ h _ => hreturn h
  · exact hreturn

/-- What a byte does to the lines after it: it goes to the front of the first, it ends a line of its
own, or it ends one together with the byte after it. -/
theorem lines_cons_cases (b : UInt8) (rest : Text) :
    lines (b :: rest) = consLine b (lines rest) ∨ lines (b :: rest) = [] :: lines rest ∨
      lines (b :: rest) = lines rest := by
  by_cases hfeed : b = 0x0A
  · subst hfeed
    exact .inr (.inl rfl)
  · by_cases hreturn : b = 0x0D
    · subst hreturn
      by_cases hpair : ∃ more, rest = 0x0A :: more
      · obtain ⟨more, rfl⟩ := hpair
        exact .inr (.inr rfl)
      · refine .inr (.inl ?_)
        rw [lines]
        exact fun more hmore => hpair ⟨more, hmore⟩
    · exact .inl (lines_cons hfeed hreturn rest)

/-- Bytes that end no line go to the front of the first line. -/
theorem lines_append {t : Text} (ht : ∀ b ∈ t, b ≠ 0x0A ∧ b ≠ 0x0D) (rest : Text) :
    ∃ first later, lines rest = first :: later ∧ lines (t ++ rest) = (t ++ first) :: later := by
  obtain ⟨first, later, hlines⟩ := List.exists_cons_of_ne_nil (lines_ne_nil rest)
  refine ⟨first, later, hlines, ?_⟩
  induction t with
  | nil => exact hlines
  | cons b t ih =>
    obtain ⟨hb, ht⟩ := List.forall_mem_cons.mp ht
    rw [List.cons_append, lines_cons hb.1 hb.2, ih ht]
    rfl

/-- An escaped triple quote loses its backslash, everything else stays. -/
theorem unescape_cons (b : UInt8) (rest : Text) :
    unescape (b :: rest) = b :: unescape rest ∨ unescape (b :: rest) = unescape rest := by
  by_cases h : b = 0x5C ∧ ∃ more, rest = 0x22 :: 0x22 :: 0x22 :: more
  · obtain ⟨rfl, more, rfl⟩ := h
    exact .inr rfl
  · refine .inl ?_
    rw [unescape]
    exact fun more hb hrest => h ⟨hb, more, hrest⟩

theorem unescape_append {t : Text} (ht : ∀ b ∈ t, b ≠ 0x5C) (rest : Text) :
    unescape (t ++ rest) = t ++ unescape rest := by
  induction t with
  | nil => rfl
  | cons b t ih =>
    obtain ⟨hb, ht⟩ := List.forall_mem_cons.mp ht
    rw [List.cons_append, unescape, ih ht, List.cons_append]
    exact fun _ h _ => hb h

theorem spells_unescape (h : Spells p t) : Spells p (unescape t) := by
  refine h.cases_ascii (motive := fun t => Spells p (unescape t)) .nil ?_ ?_
  · intro b rest hascii hb hrest ih
    rcases unescape_cons b rest with heq | heq
    · exact heq ▸ ih.ascii hascii hb
    · exact heq ▸ ih
  · intro c rest hc hscalar hp hrest ih
    rw [unescape_append (Utf8.ne_of_mem_encode hc (by decide))]
    exact .char hscalar hp ih

theorem spells_lines (h : Spells p t) : ∀ line ∈ lines t, Spells p line := by
  refine h.cases_ascii (motive := fun t => ∀ line ∈ lines t, Spells p line) ?_ ?_ ?_
  · exact List.forall_mem_singleton.mpr Spells.nil
  · intro b rest hascii hb hrest ih
    rcases lines_cons_cases b rest with heq | heq | heq
    · obtain ⟨first, later, hlines⟩ := List.exists_cons_of_ne_nil (lines_ne_nil rest)
      rw [hlines] at ih
      obtain ⟨hfirst, hlater⟩ := List.forall_mem_cons.mp ih
      rw [heq, hlines]
      exact List.forall_mem_cons.mpr ⟨hfirst.ascii hascii hb, hlater⟩
    · exact heq ▸ List.forall_mem_cons.mpr ⟨.nil, ih⟩
    · exact heq ▸ ih
  · intro c rest hc hscalar hp hrest ih
    obtain ⟨first, later, hlines, happend⟩ := lines_append (t := Utf8.encode c) (fun b hb =>
      ⟨Utf8.ne_of_mem_encode hc (by decide) b hb, Utf8.ne_of_mem_encode hc (by decide) b hb⟩) rest
    rw [hlines] at ih
    obtain ⟨hfirst, hlater⟩ := List.forall_mem_cons.mp ih
    rw [happend]
    exact List.forall_mem_cons.mpr ⟨.char hscalar hp hfirst, hlater⟩

/-- No line that holds more than blanks is cut into. -/
theorem commonIndent_le {ls : List Text} {line : Text} (hline : line ∈ ls)
    (hblank : isBlankLine line = false) : commonIndent ls ≤ indent line := by
  have hmem : indent line ∈ (ls.filter (!isBlankLine ·)).map indent :=
    List.mem_map_of_mem (List.mem_filter.mpr ⟨hline, by rw [hblank]; rfl⟩)
  unfold commonIndent
  cases hmin : ((ls.filter (!isBlankLine ·)).map indent).min? with
  | none => exact Nat.zero_le _
  | some n => exact (List.min?_eq_some_iff.mp hmin).2 _ hmem

theorem ascii_of_isBlank {b : UInt8} (h : isBlank b = true) : b.toNat < 0x80 := by
  rw [isBlank, Bool.or_eq_true, beq_iff_eq, beq_iff_eq] at h
  rcases h with rfl | rfl <;> decide

/-- Blanks at the front of a line may be dropped, and any part of a line of blanks. -/
theorem spells_drop {line : Text} (h : Spells p line) {n : Nat}
    (hn : isBlankLine line = true ∨ n ≤ indent line) : Spells p (line.drop n) := by
  induction n generalizing line with
  | zero => exact h
  | succ n ih =>
    cases line with
    | nil => exact h
    | cons b line =>
      have hb : isBlank b = true ∧ (isBlankLine line = true ∨ n ≤ indent line) := by
        rcases hn with hall | hle
        · rw [isBlankLine, List.all_cons, Bool.and_eq_true] at hall
          exact ⟨hall.1, .inl hall.2⟩
        · rw [indent, List.takeWhile_cons] at hle
          split_ifs at hle with hblank
          · exact ⟨hblank, .inr (Nat.le_of_succ_le_succ hle)⟩
          · cases hle
      exact ih ((Utf8.spells_ascii_iff (ascii_of_isBlank hb.1)).mp h).2 hb.2

theorem mem_of_mem_trimLines {ls : List Text} {line : Text} (h : line ∈ trimLines ls) :
    line ∈ ls := by
  rw [trimLines, List.mem_reverse] at h
  have h' := (List.dropWhile_suffix isBlankLine).subset h
  rw [List.mem_reverse] at h'
  exact (List.dropWhile_suffix isBlankLine).subset h'

theorem spells_join {separator : Text} {parts : List Text} (hseparator : Spells p separator)
    (hparts : ∀ part ∈ parts, Spells p part) : Spells p (Text.join separator parts) := by
  fun_induction Text.join separator parts with
  | case1 => exact .nil
  | case2 part => exact hparts part (List.mem_singleton_self part)
  | case3 part parts _ ih =>
    obtain ⟨hpart, hparts⟩ := List.forall_mem_cons.mp hparts
    exact (hpart.append hseparator).append (ih hparts)

/-- The value of a block string is written with characters of its body and line feeds. -/
theorem spells_value (hfeed : p 0x0A) (h : Spells p t) : Spells p (value t) := by
  have hlines := spells_lines h
  unfold value
  split
  · exact .nil
  · next first later heq =>
    rw [heq] at hlines
    obtain ⟨hfirst, hlater⟩ := List.forall_mem_cons.mp hlines
    refine spells_join (Spells.nil.ascii (by decide) hfeed) fun line hline => ?_
    rcases List.mem_cons.mp (mem_of_mem_trimLines hline) with rfl | hmem
    · exact hfirst
    · obtain ⟨whole, hwhole, rfl⟩ := List.mem_map.mp hmem
      refine spells_drop (hlater whole hwhole) ?_
      cases hblank : isBlankLine whole with
      | true => exact .inl rfl
      | false => exact .inr (commonIndent_le hwhole hblank)

end BlockString

end GraphQL
