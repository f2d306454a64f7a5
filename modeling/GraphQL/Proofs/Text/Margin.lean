import Mathlib.Data.List.DropRight
import Mathlib.Order.Bounds.Basic
import GraphQL.Proofs.Text.BlockString

/-! The value of a block string, told by its lines: those from the first to the last that holds more
than blanks, the later ones without the margin they have in common. How the lines end does not
matter, nor how far all later lines are moved in. -/

namespace GraphQL

namespace BlockString

variable {raw rest line w : Text} {first : Text} {ls later : List Text} {b : UInt8} {k n : Nat}

/-! ### Lines -/

/-- No line terminator is in a line. -/
def IsLine (line : Text) : Prop := ∀ b ∈ line, b ≠ 0x0A ∧ b ≠ 0x0D

/-- A text and its lines. A carriage return ends a line together with a line feed after it. -/
inductive Splits : Text → List Text → Prop
  | last {line : Text} : IsLine line → Splits line [line]
  | feed {line rest : Text} {ls : List Text} :
      IsLine line → Splits rest ls → Splits (line ++ 0x0A :: rest) (line :: ls)
  | returnFeed {line rest : Text} {ls : List Text} :
      IsLine line → Splits rest ls → Splits (line ++ 0x0D :: 0x0A :: rest) (line :: ls)
  | carriage {line rest : Text} {ls : List Text} :
      IsLine line → rest.head? ≠ some 0x0A → Splits rest ls →
      Splits (line ++ 0x0D :: rest) (line :: ls)

theorem lines_return (h : rest.head? ≠ some 0x0A) : lines (0x0D :: rest) = [] :: lines rest := by
  rw [lines]
  rintro more rfl
  exact h rfl

/-- A line before a line terminator. -/
theorem lines_terminated (hline : IsLine line) (h : lines rest = [] :: ls) :
    lines (line ++ rest) = line :: ls := by
  obtain ⟨first, later, hrest, happend⟩ := lines_append hline rest
  rw [h, List.cons.injEq] at hrest
  obtain ⟨rfl, rfl⟩ := hrest
  rw [happend, List.append_nil]

/-- Something before the first line that ends no line. -/
theorem Splits.prepend (hw : IsLine w) (h : Splits raw (first :: later)) :
    Splits (w ++ raw) ((w ++ first) :: later) := by
  have hline {line : Text} (hline : IsLine line) : IsLine (w ++ line) :=
    List.forall_mem_append.mpr ⟨hw, hline⟩
  cases h with
  | last h => exact .last (hline h)
  | feed h hrest =>
    rw [← List.append_assoc]
    exact .feed (hline h) hrest
  | returnFeed h hrest =>
    rw [← List.append_assoc]
    exact .returnFeed (hline h) hrest
  | carriage h hhead hrest =>
    rw [← List.append_assoc]
    exact .carriage (hline h) hhead hrest

theorem splits_lines (raw : Text) : Splits raw (lines raw) := by
  have hnil : IsLine [] := List.forall_mem_nil _
  fun_induction lines raw with
  | case1 => exact .last hnil
  | case2 rest ih => exact .feed hnil ih
  | case3 rest ih => exact .returnFeed hnil ih
  | case4 rest hhead ih =>
    refine .carriage hnil ?_ ih
    intro h
    obtain ⟨more, rfl⟩ := List.head?_eq_some_iff.mp h
    exact hhead more rfl
  | case5 b rest hfeed _ hreturn ih =>
    have hb : IsLine [b] := List.forall_mem_singleton.mpr ⟨hfeed, hreturn⟩
    obtain ⟨first, later, hlines⟩ := List.exists_cons_of_ne_nil (lines_ne_nil rest)
    rw [hlines] at ih ⊢
    exact ih.prepend hb

/-- A text splits into its lines in one way. -/
theorem splits_iff : Splits raw ls ↔ lines raw = ls := by
  constructor
  · intro h
    induction h with
    | @last line h =>
      have happend : lines (line ++ []) = [line] := lines_terminated h rfl
      rwa [List.append_nil] at happend
    | feed h _ ih => exact lines_terminated h (congrArg ([] :: ·) ih)
    | returnFeed h _ ih => exact lines_terminated h (congrArg ([] :: ·) ih)
    | carriage h hhead _ ih =>
      exact lines_terminated h ((lines_return hhead).trans (congrArg ([] :: ·) ih))
  · rintro rfl
    exact splits_lines raw

theorem Splits.isLine (h : Splits raw ls) : ∀ line ∈ ls, IsLine line := by
  induction h with
  | last h => exact List.forall_mem_singleton.mpr h
  | feed h _ ih => exact List.forall_mem_cons.mpr ⟨h, ih⟩
  | returnFeed h _ ih => exact List.forall_mem_cons.mpr ⟨h, ih⟩
  | carriage h _ _ ih => exact List.forall_mem_cons.mpr ⟨h, ih⟩

/-- A text with something else in place of each line terminator. -/
def mapEnds (f : Text → Text) : Text → Text
  | [] => []
  | 0x0A :: rest => f [0x0A] ++ mapEnds f rest
  | 0x0D :: 0x0A :: rest => f [0x0D, 0x0A] ++ mapEnds f rest
  | 0x0D :: rest => f [0x0D] ++ mapEnds f rest
  | b :: rest => b :: mapEnds f rest

/-- A text whose lines all end with line feeds. -/
def withLineFeeds (raw : Text) : Text := mapEnds (fun _ => [0x0A]) raw

/-- A text with `w` before every line after the first. -/
def indented (w raw : Text) : Text := mapEnds (· ++ w) raw

theorem mapEnds_append (f : Text → Text) (hline : IsLine line) (rest : Text) :
    mapEnds f (line ++ rest) = line ++ mapEnds f rest := by
  induction line with
  | nil => rfl
  | cons b line ih =>
    obtain ⟨hb, hline⟩ := List.forall_mem_cons.mp hline
    rw [List.cons_append, mapEnds, ih hline, List.cons_append]
    · exact hb.1
    · exact fun _ h _ => hb.2 h
    · exact hb.2

theorem mapEnds_line (f : Text → Text) (hline : IsLine line) : mapEnds f line = line := by
  have h := mapEnds_append f hline []
  rwa [mapEnds, List.append_nil] at h

theorem mapEnds_return (f : Text → Text) (h : rest.head? ≠ some 0x0A) :
    mapEnds f (0x0D :: rest) = f [0x0D] ++ mapEnds f rest := by
  rw [mapEnds]
  rintro more rfl
  exact h rfl

theorem Splits.withLineFeeds (h : Splits raw ls) : Splits (withLineFeeds raw) ls := by
  unfold BlockString.withLineFeeds
  induction h with
  | last h =>
    rw [mapEnds_line _ h]
    exact .last h
  | feed h _ ih =>
    rw [mapEnds_append _ h]
    exact .feed h ih
  | returnFeed h _ ih =>
    rw [mapEnds_append _ h]
    exact .feed h ih
  | carriage h hhead _ ih =>
    rw [mapEnds_append _ h, mapEnds_return _ hhead]
    exact .feed h ih

/-- A text begins as before when its lines are moved in. -/
theorem head?_indented (w raw : Text) : (indented w raw).head? = raw.head? := by
  unfold indented
  fun_cases mapEnds (· ++ w) raw <;> rfl

theorem Splits.indented (hw : IsLine w) (h : Splits raw ls) :
    ∃ first later, ls = first :: later ∧
      Splits (indented w raw) (first :: later.map (w ++ ·)) := by
  induction h with
  | @last line h =>
    refine ⟨line, [], rfl, ?_⟩
    rw [BlockString.indented, mapEnds_line _ h]
    exact .last h
  | @feed line rest ls h _ ih =>
    obtain ⟨first, later, rfl, ih⟩ := ih
    refine ⟨line, _, rfl, ?_⟩
    rw [BlockString.indented, mapEnds_append _ h]
    exact .feed h (ih.prepend hw)
  | @returnFeed line rest ls h _ ih =>
    obtain ⟨first, later, rfl, ih⟩ := ih
    refine ⟨line, _, rfl, ?_⟩
    rw [BlockString.indented, mapEnds_append _ h]
    exact .returnFeed h (ih.prepend hw)
  | @carriage line rest ls h hhead _ ih =>
    obtain ⟨first, later, rfl, ih⟩ := ih
    refine ⟨line, _, rfl, ?_⟩
    rw [BlockString.indented, mapEnds_append _ h, mapEnds_return _ hhead]
    refine .carriage h ?_ (ih.prepend hw)
    -- No line feed may come to stand after the carriage return.
    cases w with
    | nil => exact (head?_indented [] rest).symm ▸ hhead
    | cons b w => exact fun h => (hw b List.mem_cons_self).1 (Option.some.inj h)

/-! ### The margin -/

/-- A line begins with so many blanks. -/
def BeginsBlank (n : Nat) (line : Text) : Prop :=
  n ≤ line.length ∧ ∀ b ∈ line.take n, isBlank b = true

/-- The margin of the lines after the first: the largest number of blanks that each of them that is
not blank begins with, and none if all of them are blank. -/
def IsMargin (later : List Text) (k : Nat) : Prop :=
  ((∀ line ∈ later, isBlankLine line = true) ∧ k = 0) ∨
    ((∃ line ∈ later, isBlankLine line = false) ∧
      IsGreatest {n | ∀ line ∈ later, isBlankLine line = false → BeginsBlank n line} k)

theorem beginsBlank_iff : BeginsBlank n line ↔ n ≤ indent line := by
  induction line generalizing n with
  | nil =>
    rw [BeginsBlank, List.take_nil]
    exact and_iff_left (List.forall_mem_nil _)
  | cons b line ih =>
    cases n with
    | zero => exact iff_of_true ⟨Nat.zero_le _, List.forall_mem_nil _⟩ (Nat.zero_le _)
    | succ n =>
      rw [BeginsBlank, List.take_succ_cons, List.forall_mem_cons, List.length_cons,
        Nat.succ_le_succ_iff, indent, List.takeWhile_cons]
      split_ifs with hb
      · rw [List.length_cons, Nat.succ_le_succ_iff, ← indent, ← ih, BeginsBlank]
        exact and_congr_right' (and_iff_right hb)
      · exact iff_of_false (fun h => hb h.2.1) (Nat.not_succ_le_zero n)

theorem blank_or_exists (later : List Text) :
    (∀ line ∈ later, isBlankLine line = true) ∨ ∃ line ∈ later, isBlankLine line = false := by
  by_cases hsome : ∃ line ∈ later, isBlankLine line = false
  · exact .inr hsome
  · exact .inl fun line hline => eq_true_of_ne_false fun h => hsome ⟨line, hline, h⟩

theorem exists_indent_eq (h : ∃ line ∈ later, isBlankLine line = false) :
    ∃ line ∈ later, isBlankLine line = false ∧ indent line = commonIndent later := by
  unfold commonIndent
  cases hmin : ((later.filter (!isBlankLine ·)).map indent).min? with
  | none =>
    obtain ⟨line, hline, hblank⟩ := h
    rw [List.min?_eq_none_iff, List.map_eq_nil_iff, List.filter_eq_nil_iff] at hmin
    exact absurd (by rw [hblank]; rfl) (hmin line hline)
  | some n =>
    obtain ⟨line, hline, rfl⟩ := List.mem_map.mp (List.min?_eq_some_iff.mp hmin).1
    obtain ⟨hmem, hblank⟩ := List.mem_filter.mp hline
    rw [Bool.not_eq_true'] at hblank
    exact ⟨line, hmem, hblank, rfl⟩

theorem commonIndent_of_blank (h : ∀ line ∈ later, isBlankLine line = true) :
    commonIndent later = 0 := by
  have hnone : later.filter (!isBlankLine ·) = [] :=
    List.filter_eq_nil_iff.mpr fun line hline => by rw [h line hline]; exact Bool.false_ne_true
  rw [commonIndent, hnone]
  rfl

theorem isMargin_commonIndent (later : List Text) : IsMargin later (commonIndent later) := by
  rcases blank_or_exists later with hall | hsome
  · exact .inl ⟨hall, commonIndent_of_blank hall⟩
  · refine .inr ⟨hsome, fun line hline h => beginsBlank_iff.mpr (commonIndent_le hline h), ?_⟩
    intro n hn
    obtain ⟨line, hline, h, hindent⟩ := exists_indent_eq hsome
    rw [← hindent]
    exact beginsBlank_iff.mp (hn line hline h)

/-- There is one margin. -/
theorem isMargin_iff : IsMargin later k ↔ commonIndent later = k := by
  constructor
  · rintro (⟨hall, rfl⟩ | ⟨hsome, hgreatest⟩)
    · exact commonIndent_of_blank hall
    · rcases isMargin_commonIndent later with ⟨hall, -⟩ | ⟨-, hcommon⟩
      · obtain ⟨line, hline, hblank⟩ := hsome
        rw [hall line hline] at hblank
        cases hblank
      · exact hcommon.unique hgreatest
  · rintro rfl
    exact isMargin_commonIndent later

/-- A line stays blank, or stays what it is, without the margin. -/
theorem isBlankLine_drop (h : isBlankLine line = false → n ≤ indent line) :
    isBlankLine (line.drop n) = isBlankLine line := by
  cases hblank : isBlankLine line with
  | true =>
    rw [isBlankLine, List.all_eq_true] at hblank ⊢
    exact fun b hb => hblank b (List.mem_of_mem_drop hb)
  | false =>
    have htake : (line.take n).all isBlank = true :=
      List.all_eq_true.mpr (beginsBlank_iff.mpr (h hblank)).2
    rw [isBlankLine, ← List.take_append_drop n line, List.all_append, htake] at hblank
    exact hblank

/-! ### The lines that are kept -/

section Core

variable {α β : Type} {blank blank' : α → Bool} {all core : List α}

/-- The part of a list from the first to the last element that is not blank. -/
def IsCore (blank : α → Bool) (all core : List α) : Prop :=
  ∃ before after, all = before ++ (core ++ after) ∧ (∀ a ∈ before, blank a = true) ∧
    (∀ a ∈ after, blank a = true) ∧ (∀ a ∈ core.head?, blank a = false) ∧
    ∀ a ∈ core.getLast?, blank a = false

/-- A list without the blank elements at both ends. -/
def trim (blank : α → Bool) (all : List α) : List α := (all.dropWhile blank).rdropWhile blank

theorem isCore_trim (blank : α → Bool) (all : List α) : IsCore blank all (trim blank all) := by
  have hsplit : all = all.takeWhile blank ++
      (trim blank all ++ (all.dropWhile blank).rtakeWhile blank) := by
    rw [trim, List.rdropWhile_append_rtakeWhile, List.takeWhile_append_dropWhile]
  refine ⟨_, _, hsplit, fun _ => List.mem_takeWhile_imp, fun _ => List.mem_rtakeWhile_imp, ?_, ?_⟩
  · intro a ha
    obtain ⟨core, hcore⟩ := List.head?_eq_some_iff.mp ha
    obtain ⟨after, hafter⟩ := List.rdropWhile_prefix blank (all.dropWhile blank)
    have hhead := List.head?_dropWhile_not blank all
    rw [trim] at hcore
    rwa [← hafter, hcore] at hhead
  · intro a ha
    obtain ⟨hne, rfl⟩ := List.mem_getLast?_eq_getLast ha
    exact Bool.eq_false_iff.mpr (List.rdropWhile_last_not blank _ hne)

/-- There is one core. -/
theorem isCore_iff : IsCore blank all core ↔ trim blank all = core := by
  constructor
  · rintro ⟨before, after, rfl, hbefore, hafter, hhead, hlast⟩
    have hend : (core ++ after).rdropWhile blank = core := by
      have hreverse : ∀ a ∈ after.reverse, blank a = true := fun a ha =>
        hafter a (List.mem_reverse.mp ha)
      rw [List.rdropWhile, List.reverse_append, List.dropWhile_append_of_pos hreverse,
        ← List.rdropWhile, List.rdropWhile_eq_self_iff]
      intro hne
      exact Bool.eq_false_iff.mp (hlast _ (List.getLast?_eq_some_getLast hne))
    rw [trim, List.dropWhile_append_of_pos hbefore]
    cases core with
    | nil =>
      rw [List.nil_append, List.dropWhile_eq_nil_iff.mpr hafter]
      rfl
    | cons a core =>
      rw [List.cons_append, List.dropWhile_cons_of_neg (Bool.eq_false_iff.mp (hhead a rfl)),
        ← List.cons_append, hend]
  · rintro rfl
    exact isCore_trim blank all

theorem IsCore.congr (h : IsCore blank all core) (hblank : ∀ a ∈ all, blank' a = blank a) :
    IsCore blank' all core := by
  obtain ⟨before, after, rfl, hbefore, hafter, hhead, hlast⟩ := h
  rw [List.forall_mem_append, List.forall_mem_append] at hblank
  obtain ⟨hb, hc, ha⟩ := hblank
  refine ⟨before, after, rfl, ?_, ?_, ?_, ?_⟩
  · exact fun a h => (hb a h).trans (hbefore a h)
  · exact fun a h => (ha a h).trans (hafter a h)
  · exact fun a h => (hc a (List.mem_of_mem_head? h)).trans (hhead a h)
  · exact fun a h => (hc a (List.mem_of_getLast? h)).trans (hlast a h)

theorem trim_map (f : α → β) (blank : β → Bool) (all : List α) :
    trim blank (all.map f) = (trim (blank ∘ f) all).map f := by
  rw [trim, trim, List.rdropWhile, List.rdropWhile, List.dropWhile_map, ← List.map_reverse,
    List.dropWhile_map, ← List.map_reverse]

/-- Blank elements at the end do not matter. -/
theorem trim_append {after : List α} (hafter : ∀ a ∈ after, blank a = true) :
    trim blank (all ++ after) = trim blank all := by
  obtain ⟨before, between, hall, hbefore, hbetween, hhead, hlast⟩ := isCore_trim blank all
  have hsplit : all ++ after = before ++ (trim blank all ++ (between ++ after)) := by
    conv_lhs => rw [hall]
    rw [List.append_assoc, List.append_assoc]
  exact isCore_iff.mp ⟨before, between ++ after, hsplit, hbefore,
    List.forall_mem_append.mpr ⟨hbetween, hafter⟩, hhead, hlast⟩

end Core

/-! ### The value -/

/-- The lines with what is shown of them: the first whole, the later ones without the margin. -/
def shown (k : Nat) (first : Text) (later : List Text) : List (Text × Text) :=
  (first, first) :: later.map fun line => (line, line.drop k)

/-- The value of a text, told by its lines: what is shown of those from the first to the last that
is not blank. -/
def IsValue (raw v : Text) : Prop :=
  ∃ first later k core, Splits raw (first :: later) ∧ IsMargin later k ∧
    IsCore (isBlankLine ·.1) (shown k first later) core ∧ v = Text.join [0x0A] (core.map (·.2))

theorem value_of_splits (h : Splits raw (first :: later)) : value raw =
    Text.join [0x0A] (trimLines (first :: later.map (·.drop (commonIndent later)))) := by
  rw [value, splits_iff.mp h]

/-- A line is blank if what is shown of it is. -/
theorem isBlankLine_shown (first : Text) (later : List Text) :
    ∀ l ∈ shown (commonIndent later) first later, isBlankLine l.2 = isBlankLine l.1 := by
  refine List.forall_mem_cons.mpr ⟨rfl, List.forall_mem_map.mpr fun line hline => ?_⟩
  exact isBlankLine_drop fun hblank => commonIndent_le hline hblank

theorem trimLines_shown (first : Text) (later : List Text) :
    trimLines (first :: later.map (·.drop (commonIndent later))) =
      (trim (isBlankLine ·.1) (shown (commonIndent later) first later)).map (·.2) := by
  have hcore := (isCore_trim (isBlankLine ·.1) (shown (commonIndent later) first later)).congr
    (isBlankLine_shown first later)
  calc trimLines (first :: later.map (·.drop (commonIndent later)))
      = trim isBlankLine ((shown (commonIndent later) first later).map (·.2)) := by
        rw [shown, List.map_cons, List.map_map]
        rfl
    _ = (trim (isBlankLine ·.2) (shown (commonIndent later) first later)).map (·.2) :=
        trim_map _ _ _
    _ = (trim (isBlankLine ·.1) (shown (commonIndent later) first later)).map (·.2) :=
        congrArg _ (isCore_iff.mp hcore)

/-- A text has one value. -/
theorem value_eq_iff {v : Text} : value raw = v ↔ IsValue raw v := by
  constructor
  · rintro rfl
    obtain ⟨first, later, hlines⟩ := List.exists_cons_of_ne_nil (lines_ne_nil raw)
    have hsplits := splits_iff.mpr hlines
    refine ⟨first, later, _, _, hsplits, isMargin_commonIndent later, isCore_trim _ _, ?_⟩
    rw [value_of_splits hsplits, trimLines_shown]
  · rintro ⟨first, later, k, core, hsplits, hk, hcore, rfl⟩
    obtain rfl := isMargin_iff.mp hk
    obtain rfl := isCore_iff.mp hcore
    rw [value_of_splits hsplits, trimLines_shown]

example : value (lit " a\r\n \r  b\n   c\n ") = lit " a\n\nb\n c" := rfl

theorem mem_join {separator : Text} {parts : List Text} (h : b ∈ Text.join separator parts) :
    b ∈ separator ∨ ∃ part ∈ parts, b ∈ part := by
  fun_induction Text.join separator parts with
  | case1 => cases h
  | case2 part => exact .inr ⟨part, List.mem_singleton_self part, h⟩
  | case3 part parts _ ih =>
    rw [List.mem_append, List.mem_append] at h
    rcases h with (hpart | hseparator) | hlater
    · exact .inr ⟨part, List.mem_cons_self, hpart⟩
    · exact .inl hseparator
    · rcases ih hlater with hseparator | ⟨more, hmore, hb⟩
      · exact .inl hseparator
      · exact .inr ⟨more, List.mem_cons_of_mem _ hmore, hb⟩

/-- Of line terminators there are only line feeds in a value. -/
theorem return_not_mem_value (raw : Text) : 0x0D ∉ value raw := by
  intro hmem
  obtain ⟨first, later, hlines⟩ := List.exists_cons_of_ne_nil (lines_ne_nil raw)
  have hsplits := splits_iff.mpr hlines
  obtain ⟨hfirst, hlater⟩ := List.forall_mem_cons.mp hsplits.isLine
  rw [value_of_splits hsplits] at hmem
  rcases mem_join hmem with hfeed | ⟨line, hline, hreturn⟩
  · exact absurd hfeed (by decide)
  · rcases List.mem_cons.mp (mem_of_mem_trimLines hline) with rfl | hline
    · exact (hfirst _ hreturn).2 rfl
    · obtain ⟨whole, hwhole, rfl⟩ := List.mem_map.mp hline
      exact (hlater whole hwhole _ (List.mem_of_mem_drop hreturn)).2 rfl

theorem value_withLineFeeds (raw : Text) : value (withLineFeeds raw) = value raw := by
  rw [value, value, splits_iff.mp (splits_lines raw).withLineFeeds]

/-- Blank lines after the first show nothing. -/
theorem trimLines_of_blank (first : Text) (h : ∀ line ∈ later, isBlankLine line = true) :
    trimLines (first :: later.map (·.drop (commonIndent later))) = trimLines [first] := by
  have hdropped : ∀ line ∈ later.map (·.drop (commonIndent later)), isBlankLine line = true := by
    refine List.forall_mem_map.mpr fun line hline => ?_
    rw [isBlankLine_drop fun hblank => commonIndent_le hline hblank, h line hline]
  change trim isBlankLine ([first] ++ later.map _) = trim isBlankLine [first]
  exact trim_append hdropped

section Indented

variable (hw : ∀ b ∈ w, isBlank b = true)
include hw

theorem isBlankLine_indented (line : Text) : isBlankLine (w ++ line) = isBlankLine line := by
  rw [isBlankLine, List.all_append, List.all_eq_true.mpr hw]
  rfl

theorem indent_indented (line : Text) : indent (w ++ line) = w.length + indent line := by
  rw [indent, List.takeWhile_append_of_pos hw, List.length_append, indent]

/-- The margin grows with the lines that are moved in. -/
theorem commonIndent_indented (hsome : ∃ line ∈ later, isBlankLine line = false) :
    commonIndent (later.map (w ++ ·)) = w.length + commonIndent later := by
  apply Nat.le_antisymm
  · obtain ⟨line, hline, hblank, hindent⟩ := exists_indent_eq hsome
    rw [← hindent, ← indent_indented hw]
    rw [← isBlankLine_indented hw] at hblank
    exact commonIndent_le (List.mem_map_of_mem hline) hblank
  · have hsome' : ∃ line ∈ later.map (w ++ ·), isBlankLine line = false := by
      obtain ⟨line, hline, hblank⟩ := hsome
      exact ⟨_, List.mem_map_of_mem hline, (isBlankLine_indented hw line).trans hblank⟩
    obtain ⟨_, hmem, hblank, hindent⟩ := exists_indent_eq hsome'
    obtain ⟨line, hline, rfl⟩ := List.mem_map.mp hmem
    rw [isBlankLine_indented hw] at hblank
    rw [← hindent, indent_indented hw]
    exact Nat.add_le_add_left (commonIndent_le hline hblank) _

theorem value_indented (raw : Text) : value (indented w raw) = value raw := by
  have hline : IsLine w := by
    intro b hb
    have hblank := hw b hb
    rw [isBlank, Bool.or_eq_true, beq_iff_eq, beq_iff_eq] at hblank
    rcases hblank with rfl | rfl <;> decide
  obtain ⟨first, later, hlines, hindented⟩ := (splits_lines raw).indented hline
  -- The margin grows by what is put before the lines, unless there is none because all are blank;
  -- then none of them is shown.
  rw [value_of_splits hindented, value_of_splits (splits_iff.mpr hlines)]
  rcases blank_or_exists later with hblank | hsome
  · have hmoved : ∀ line ∈ later.map (w ++ ·), isBlankLine line = true :=
      List.forall_mem_map.mpr fun line hline =>
        (isBlankLine_indented hw line).trans (hblank line hline)
    rw [trimLines_of_blank first hmoved, trimLines_of_blank first hblank]
  · have hdrop : (later.map (w ++ ·)).map (·.drop (commonIndent (later.map (w ++ ·)))) =
        later.map (·.drop (commonIndent later)) := by
      rw [commonIndent_indented hw hsome, List.map_map]
      exact List.map_congr_left fun line _ => List.drop_length_add_append _
    rw [hdrop]

end Indented

/-- A text has the value that its lines tell. There is no carriage return in it, and it stays the
same when every line terminator becomes a line feed, and when the same blanks are put before every
line after the first. -/
theorem value_characterized : (∀ raw v, value raw = v ↔ IsValue raw v) ∧
    ∀ raw, 0x0D ∉ value raw ∧ value (withLineFeeds raw) = value raw ∧
      ∀ w, (∀ b ∈ w, isBlank b = true) → value (indented w raw) = value raw :=
  ⟨fun _ _ => value_eq_iff, fun raw =>
    ⟨return_not_mem_value raw, value_withLineFeeds raw, fun _ hw => value_indented hw raw⟩⟩

/-- A tab before the three lines after the first, one of which is blank. -/
theorem value_indented_tab : (∀ b ∈ lit "\t", isBlank b = true) ∧
    value (indented (lit "\t") (lit " a\r\n \r  b\n   c")) = value (lit " a\r\n \r  b\n   c") := by
  have htab : ∀ b ∈ lit "\t", isBlank b = true := List.all_eq_true.mp rfl
  exact ⟨htab, (value_characterized.2 _).2.2 _ htab⟩

end BlockString

end GraphQL
