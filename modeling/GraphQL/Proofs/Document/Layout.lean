import Mathlib.Data.List.Induction
import GraphQL.Proofs.Document.Rendering
import GraphQL.Proofs.Token.Order

/-! Documents as they are laid out: the rendering of a document, with a bracket around the pieces of
each part that remembers its span. Where a layout stands in tokens, brackets nest like the tokens
between them. -/

namespace GraphQL

/-- A piece, or what is written for a part that remembers where it was read. -/
inductive Layout where
  | piece (p : Piece)
  | part (span : Span) (inside : List Layout)

namespace Layout

def mark (m : Punctuator) : Layout := .piece (.mark m)

def name (n : Text) : Layout := .piece (.name n)

/-- Layouts between marks. -/
def between (opening closing : Punctuator) (inner : List Layout) : List Layout :=
  mark opening :: (inner ++ [mark closing])

/-- The layout of a part that may be left out. -/
def optional {α : Type} (f : α → List Layout) (o : Option α) : List Layout := (o.map f).getD []

def span? : Layout → Option Span
  | piece _ => none
  | part span _ => some span

/-- The spans of the parts that stand side by side. -/
def spans (ls : List Layout) : List Span := ls.filterMap span?

mutual

/-- What a layout renders as. -/
def pieces : Layout → List Piece
  | piece p => [p]
  | part _ inside => allPieces inside

def allPieces : List Layout → List Piece
  | [] => []
  | l :: rest => l.pieces ++ allPieces rest

end

/-- Layouts that stand in tokens: a piece takes one token, and a part takes tokens without a gap,
its span from the start of the first to the end of the last. -/
inductive Stand (schema : Schema) : List Layout → List (Located Token) → Prop
  | nil : Stand schema [] []
  | piece {p : Piece} {t : Located Token} {ls : List Layout} {ts : List (Located Token)} :
      Piece.Fits schema t.value p → Stand schema ls ts → Stand schema (.piece p :: ls) (t :: ts)
  | part {span : Span} {inside ls : List Layout} {us ts : List (Located Token)} :
      Stand schema inside us → Span.hull? (us.map (·.span)) = some span → Stand schema ls ts →
      Stand schema (.part span inside :: ls) (us ++ ts)

/-- The span of each part holds something and holds the spans of the parts inside; and the spans of
parts side by side are disjoint, in order. -/
inductive Nests : Layout → Prop
  | piece (p : Piece) : Nests (.piece p)
  | part {span : Span} {inside : List Layout} :
      span.start < span.stop →
      (∀ inner ∈ spans inside, span.start ≤ inner.start ∧ inner.stop ≤ span.stop) →
      (spans inside).Pairwise (fun a b => a.stop ≤ b.start) →
      (∀ l ∈ inside, Nests l) →
      Nests (.part span inside)

@[simp] theorem spans_nil : spans [] = [] := rfl

@[simp] theorem spans_piece (p : Piece) (ls : List Layout) : spans (.piece p :: ls) = spans ls :=
  rfl

@[simp] theorem spans_part (span : Span) (inside ls : List Layout) :
    spans (.part span inside :: ls) = span :: spans ls := rfl

@[simp] theorem allPieces_nil : allPieces [] = [] := rfl

@[simp] theorem allPieces_cons (l : Layout) (ls : List Layout) :
    allPieces (l :: ls) = l.pieces ++ allPieces ls := rfl

@[simp] theorem allPieces_append (ls ms : List Layout) :
    allPieces (ls ++ ms) = allPieces ls ++ allPieces ms := by
  induction ls with
  | nil => rfl
  | cons l ls ih => rw [List.cons_append, allPieces_cons, allPieces_cons, ih, List.append_assoc]

theorem allPieces_optional {α : Type} (f : α → List Layout) (o : Option α) :
    allPieces (optional f o) = piecesOf (fun a => allPieces (f a)) o := by
  cases o <;> rfl

theorem allPieces_between (opening closing : Punctuator) (inner : List Layout) :
    allPieces (between opening closing inner) =
      Piece.between opening closing (allPieces inner) := by
  simp only [between, Piece.between, allPieces_cons, allPieces_append]
  rfl

theorem allPieces_flatMap {α : Type} (f : α → List Layout) (as : List α) :
    allPieces (as.flatMap f) = as.flatMap fun a => allPieces (f a) := by
  induction as with
  | nil => rfl
  | cons a as ih => rw [List.flatMap_cons, List.flatMap_cons, allPieces_append, ih]

variable {schema : Schema} {ls ms : List Layout} {ts us : List (Located Token)} {span : Span}

theorem Stand.append (h : Stand schema ls ts) (h' : Stand schema ms us) :
    Stand schema (ls ++ ms) (ts ++ us) := by
  induction h with
  | nil => exact h'
  | piece hfits _ ih => exact .piece hfits ih
  | part hinside hspan _ _ ih =>
    rw [List.append_assoc]
    exact .part hinside hspan ih

/-- A part by itself. -/
theorem stand_part_iff {inside : List Layout} : Stand schema [.part span inside] ts ↔
    Stand schema inside ts ∧ Span.hull? (ts.map (·.span)) = some span := by
  constructor
  · intro h
    cases h with
    | part hinside hspan hnil =>
      cases hnil
      rw [List.append_nil]
      exact ⟨hinside, hspan⟩
  · rintro ⟨hinside, hspan⟩
    have h : Stand schema [.part span inside] (ts ++ []) := .part hinside hspan .nil
    rwa [List.append_nil] at h

end Layout

namespace Span

variable {ts us : List (Located Token)} {span : Span}

/-- Where tokens end, if there are any. -/
def stopAfter (before : Position) (ts : List (Located Token)) : Position :=
  (ts.getLast?.map (·.span.stop)).getD before

@[simp] theorem stopAfter_nil (before : Position) : stopAfter before [] = before := rfl

@[simp] theorem stopAfter_cons (before : Position) (t : Located Token) :
    stopAfter before (t :: ts) = stopAfter t.span.stop ts := by
  unfold stopAfter
  rw [List.getLast?_cons]
  cases ts.getLast? <;> rfl

@[simp] theorem stopAfter_append (before : Position) :
    stopAfter before (ts ++ us) = stopAfter (stopAfter before ts) us := by
  induction ts generalizing before with
  | nil => rfl
  | cons t ts ih => rw [List.cons_append, stopAfter_cons, stopAfter_cons, ih]

theorem hull?_cons (t : Located Token) (ts : List (Located Token)) :
    hull? ((t :: ts).map (·.span)) = some ⟨t.span.start, stopAfter t.span.stop ts⟩ := by
  unfold hull? stopAfter
  rw [List.getLast?_map, List.getLast?_cons]
  cases ts.getLast? <;> rfl

/-- Tokens with a hull: the first of them and where they end. -/
theorem hull?_eq_some_iff : hull? (ts.map (·.span)) = some span ↔
    ∃ t us, ts = t :: us ∧ span = ⟨t.span.start, stopAfter t.span.stop us⟩ := by
  cases ts with
  | nil =>
    constructor
    · intro h
      cases h
    · rintro ⟨t, us, h, -⟩
      cases h
  | cons t us =>
    rw [hull?_cons]
    constructor
    · intro h
      cases h
      exact ⟨t, us, rfl, rfl⟩
    · rintro ⟨_, _, heq, rfl⟩
      cases heq
      rfl

theorem stopAfter_of_hull? (h : hull? (ts.map (·.span)) = some span) (before : Position) :
    stopAfter before ts = span.stop := by
  obtain ⟨t, us, rfl, rfl⟩ := hull?_eq_some_iff.mp h
  exact stopAfter_cons before t

theorem hull?_append {left : Span} (h : hull? (ts.map (·.span)) = some left) :
    hull? ((ts ++ us).map (·.span)) = some ⟨left.start, stopAfter left.stop us⟩ := by
  obtain ⟨t, rest, rfl, rfl⟩ := hull?_eq_some_iff.mp h
  rw [List.cons_append, hull?_cons, stopAfter_append]

end Span

namespace InOrder

variable {ts us : List (Located Token)} {span : Span}

theorem left (h : InOrder (ts ++ us)) : InOrder ts :=
  ⟨fun a ha => h.filled a (List.mem_append_left us ha), (List.pairwise_append.mp h.ordered).1⟩

theorem right (h : InOrder (ts ++ us)) : InOrder us :=
  ⟨fun a ha => h.filled a (List.mem_append_right ts ha), (List.pairwise_append.mp h.ordered).2.1⟩

theorem across (h : InOrder (ts ++ us)) {a b : Located Token} (ha : a ∈ ts) (hb : b ∈ us) :
    a.span.stop ≤ b.span.start :=
  (List.pairwise_append.mp h.ordered).2.2 a ha b hb

theorem stop_le_stopAfter (h : InOrder ts) (before : Position) {a : Located Token} (ha : a ∈ ts) :
    a.span.stop ≤ Span.stopAfter before ts := by
  induction ts using List.reverseRecOn with
  | nil => cases ha
  | append_singleton ts last ih =>
    have hlast : Span.stopAfter before (ts ++ [last]) = last.span.stop := by simp
    rw [hlast]
    rcases List.mem_append.mp ha with ha | ha
    · have hfilled := h.filled last (List.mem_append_right ts List.mem_cons_self)
      exact Position.le_trans (h.across ha List.mem_cons_self) (Position.le_of_lt hfilled)
    · rw [List.mem_singleton.mp ha]
      exact Position.le_refl _

/-- The hull of tokens in order holds each of them. -/
theorem within_hull (h : InOrder ts) (hspan : Span.hull? (ts.map (·.span)) = some span)
    {a : Located Token} (ha : a ∈ ts) : span.start ≤ a.span.start ∧ a.span.stop ≤ span.stop := by
  obtain ⟨t, us, rfl, rfl⟩ := Span.hull?_eq_some_iff.mp hspan
  constructor
  · show t.span.start ≤ a.span.start
    rcases List.mem_cons.mp ha with rfl | ha
    · exact Position.le_refl _
    · have hfilled := h.filled t List.mem_cons_self
      have hafter := (List.pairwise_cons.mp h.ordered).1 a ha
      exact Position.le_of_lt (Position.lt_of_lt_of_le hfilled hafter)
  · show a.span.stop ≤ Span.stopAfter t.span.stop us
    have hstop := h.stop_le_stopAfter t.span.stop ha
    rwa [Span.stopAfter_cons] at hstop

end InOrder

namespace Layout

variable {schema : Schema} {ls : List Layout} {ts : List (Located Token)}

/-- The span of a part runs from the start of a token it takes to the end of one. -/
theorem Stand.ends (h : Stand schema ls ts) : ∀ span ∈ spans ls,
    (∃ a ∈ ts, span.start = a.span.start) ∧ ∃ b ∈ ts, span.stop = b.span.stop := by
  induction h with
  | nil => exact List.forall_mem_nil _
  | @piece p t ls ts hfits hrest ih =>
    intro span hspan
    obtain ⟨⟨a, ha, hstart⟩, b, hb, hstop⟩ := ih span hspan
    exact ⟨⟨a, List.mem_cons_of_mem t ha, hstart⟩, b, List.mem_cons_of_mem t hb, hstop⟩
  | @part span inside ls us ts hinside hspan hrest _ ih =>
    intro found hfound
    rcases List.mem_cons.mp hfound with rfl | hfound
    · obtain ⟨t, us, rfl, rfl⟩ := Span.hull?_eq_some_iff.mp hspan
      constructor
      · exact ⟨t, List.mem_append_left ts List.mem_cons_self, rfl⟩
      · obtain ⟨last, hlast⟩ : ∃ last, (t :: us).getLast? = some last :=
          ⟨_, List.getLast?_eq_some_getLast (List.cons_ne_nil t us)⟩
        refine ⟨last, List.mem_append_left ts (List.mem_of_getLast? hlast), ?_⟩
        show Span.stopAfter t.span.stop us = last.span.stop
        rw [← Span.stopAfter_cons t.span.stop t, Span.stopAfter, hlast]
        rfl
    · obtain ⟨⟨a, ha, hstart⟩, b, hb, hstop⟩ := ih found hfound
      exact ⟨⟨a, List.mem_append_right us ha, hstart⟩, b, List.mem_append_right us hb, hstop⟩

/-- Where layouts stand in tokens in order, their brackets nest. -/
theorem Stand.nests (h : Stand schema ls ts) (hts : InOrder ts) :
    (spans ls).Pairwise (fun a b => a.stop ≤ b.start) ∧ ∀ l ∈ ls, l.Nests := by
  induction h with
  | nil => exact ⟨.nil, List.forall_mem_nil _⟩
  | @piece p t ls ts hfits hrest ih =>
    have hrow : InOrder ([t] ++ ts) := hts
    obtain ⟨hordered, hnests⟩ := ih hrow.right
    exact ⟨hordered, List.forall_mem_cons.mpr ⟨.piece p, hnests⟩⟩
  | @part span inside ls us ts hinside hspan hrest ihinside ih =>
    obtain ⟨hordered, hnests⟩ := ih hts.right
    obtain ⟨hinner, hinsides⟩ := ihinside hts.left
    have hwithin : ∀ a ∈ us, span.start ≤ a.span.start ∧ a.span.stop ≤ span.stop :=
      fun a ha => hts.left.within_hull hspan ha
    -- The span ends with a token of its own, and later spans start with later tokens.
    have hlater : ∀ b ∈ spans ls, span.stop ≤ b.start := by
      intro b hb
      obtain ⟨-, last, hlast, hstop⟩ :=
        (stand_part_iff.mpr ⟨hinside, hspan⟩).ends span List.mem_cons_self
      obtain ⟨⟨first, hfirst, hstart⟩, -⟩ := hrest.ends b hb
      rw [hstop, hstart]
      exact hts.across hlast hfirst
    have hpart : Nests (.part span inside) := by
      apply Nests.part
      · obtain ⟨t, rest, hus, -⟩ := Span.hull?_eq_some_iff.mp hspan
        have ht : t ∈ us := hus ▸ List.mem_cons_self
        obtain ⟨hstart, hstop⟩ := hwithin t ht
        exact Position.lt_of_le_of_lt hstart
          (Position.lt_of_lt_of_le (hts.left.filled t ht) hstop)
      · intro inner hmem
        obtain ⟨⟨a, ha, hstart⟩, b, hb, hstop⟩ := hinside.ends inner hmem
        rw [hstart, hstop]
        exact ⟨(hwithin a ha).1, (hwithin b hb).2⟩
      · exact hinner
      · exact hinsides
    exact ⟨List.pairwise_cons.mpr ⟨hlater, hordered⟩, List.forall_mem_cons.mpr ⟨hpart, hnests⟩⟩

end Layout

end GraphQL
