import GraphQL.Proofs.Document.Directives
import GraphQL.Proofs.Schema.Unions

/-! Selections: the parser reads exactly what renders as one. One token ahead tells an alias from a
name and the forms of a fragment from each other. What is written is read back as long as what can be
selected is found, which takes unions that end. -/

namespace GraphQL

namespace Parser

variable {schema : Schema} {α : Type} {s s' : Tokens} {ts rest : List Token}

/-- Tokens of a selection where certain fields can be selected. -/
def IsSelection (schema : Schema) (fields : Fields) : Selection → List Token → Prop :=
  Derives schema (Selection.isWellFormed schema fields) (Selection.pieces schema fields)

/-- Tokens of selections between braces. -/
def IsSelectionSet (schema : Schema) (fields : Fields) : SelectionSet → List Token → Prop :=
  Derives schema (SelectionSet.isWellFormed schema fields) (SelectionSet.pieces schema fields)

/-- The name of a field, after its alias if it has one. -/
def nameTokens : Option (Located Text) × Located Text → List Token
  | (none, n) => [.name n.value]
  | (some a, n) => [.name a.value, .mark .colon, .name n.value]

/-- The type condition of a fragment in place. -/
def conditionTokens : Option (Located Text) → List Token
  | none => []
  | some c => [.name (lit "on"), .name c.value]

variable {fields : Fields} {selection : Fields → Parser Selection}

theorem setPieces_eq (selections : List Selection) : Selection.setPieces schema fields selections =
    selections.flatMap (Selection.pieces schema fields) := by
  induction selections with
  | nil => rfl
  | cons a selections ih => rw [List.flatMap_cons, ← ih]; rfl

theorem areWellFormed_eq_all (selections : List Selection) :
    Selection.areWellFormed schema fields selections =
      selections.all (Selection.isWellFormed schema fields) := by
  induction selections with
  | nil => rfl
  | cons a selections ih => rw [List.all_cons, ← ih]; rfl

theorem unlocatedSet_eq (selections : List Selection) :
    Selection.unlocatedSet selections = selections.map Selection.unlocated := by
  induction selections with
  | nil => rfl
  | cons a selections ih => rw [List.map_cons, ← ih]; rfl

theorem unlocated_field (head : FieldHead) (below : Option SelectionSet) :
    (Selection.field head below).unlocated =
      .field head.unlocated (below.map Selection.unlocatedSet) := by
  cases below <;> rfl

theorem isSelectionSet_iff {r : Located SelectionSet} : IsSelectionSet schema fields r.value ts ↔
    r.value ≠ [] ∧ Delimited .curlyOpen .curlyClose (IsSelection schema fields) r ts := by
  unfold IsSelectionSet IsSelection
  rw [delimited_derives_iff]
  simp [Derives, SelectionSet.isWellFormed, SelectionSet.pieces, setPieces_eq, areWellFormed_eq_all,
    and_assoc]

theorem isSelectionSet_opens : Opens (IsSelectionSet schema fields) .curlyOpen := by
  intro set ts h
  obtain ⟨us, rfl, -⟩ := writes_between.mp h.2
  exact ⟨_, rfl⟩

theorem isSelection_field_iff {head : FieldHead} {below : Option SelectionSet} :
    IsSelection schema fields (.field head below) ts ↔ ∃ us vs ws,
      ts = nameTokens (head.aliasName, head.name) ++ (us ++ (vs ++ ws)) ∧
      Optionally (IsArguments schema (FieldHead.argumentDefs fields head.name.value))
        head.arguments us ∧
      Optionally (IsDirectives schema) head.directives vs ∧
      Optionally (IsSelectionSet schema (FieldHead.fieldsBelow schema fields head.name.value))
        below ws := by
  have hpieces : (Selection.field head below).pieces schema fields =
      (nameTokens (head.aliasName, head.name)).map .token ++
        (piecesOf (fun args => args.value.pieces schema
          (FieldHead.argumentDefs fields head.name.value)) head.arguments ++
        (piecesOf (Directives.pieces schema) head.directives ++
          piecesOf (SelectionSet.pieces schema
            (FieldHead.fieldsBelow schema fields head.name.value)) below)) := by
    cases below <;> cases halias : head.aliasName <;>
      simp [Selection.pieces, FieldHead.pieces, SelectionSet.pieces, nameTokens, piecesOf, halias,
        Piece.name, Piece.mark]
  have hwf : (Selection.field head below).isWellFormed schema fields =
      (head.isWellFormed schema fields && whenPresent (SelectionSet.isWellFormed schema
        (FieldHead.fieldsBelow schema fields head.name.value)) below) := by
    cases below with
    | none => exact (Bool.and_true _).symm
    | some below => exact Bool.and_assoc _ _ _
  unfold IsSelection IsArguments IsDirectives IsSelectionSet
  simp only [optionally_derives_iff, Derives, hpieces, hwf, FieldHead.isWellFormed,
    Bool.and_eq_true, writes_append, writes_tokens]
  constructor
  · rintro ⟨⟨⟨hargs, hds⟩, hbelow⟩, _, _, rfl, rfl, us, _, rfl, hus, vs, ws, rfl, hvs, hws⟩
    exact ⟨us, vs, ws, rfl, ⟨hargs, hus⟩, ⟨hds, hvs⟩, hbelow, hws⟩
  · rintro ⟨us, vs, ws, rfl, ⟨hargs, hus⟩, ⟨hds, hvs⟩, hbelow, hws⟩
    exact ⟨⟨⟨hargs, hds⟩, hbelow⟩, _, _, rfl, rfl, us, _, rfl, hus, vs, ws, rfl, hvs, hws⟩

theorem isSelection_spread_iff {spread : Spread} : IsSelection schema fields (.spread spread) ts ↔
    ∃ us, ts = .mark .ellipsis :: .name spread.name.value :: us ∧ spread.name.value ≠ lit "on" ∧
      Optionally (IsDirectives schema) spread.directives us := by
  unfold IsSelection IsDirectives
  simp only [optionally_derives_iff, Derives, Selection.pieces, Selection.isWellFormed,
    Spread.pieces, Spread.isWellFormed, writes_mark, writes_name, Bool.and_eq_true, bne_iff_ne]
  constructor
  · rintro ⟨⟨hon, hds⟩, _, rfl, us, rfl, hus⟩
    exact ⟨us, rfl, hon, hds, hus⟩
  · rintro ⟨us, rfl, hon, hds, hus⟩
    exact ⟨⟨hon, hds⟩, _, rfl, us, rfl, hus⟩

theorem isSelection_inline_iff {head : InlineHead} {inside : SelectionSet} :
    IsSelection schema fields (.inline head inside) ts ↔ ∃ us vs,
      ts = .mark .ellipsis :: (conditionTokens head.condition ++ (us ++ vs)) ∧
      Optionally (IsDirectives schema) head.directives us ∧
      IsSelectionSet schema (InlineHead.fieldsInside schema fields head.condition) inside vs := by
  have hpieces : (Selection.inline head inside).pieces schema fields =
      .mark .ellipsis :: ((conditionTokens head.condition).map .token ++
        (piecesOf (Directives.pieces schema) head.directives ++ SelectionSet.pieces schema
          (InlineHead.fieldsInside schema fields head.condition) inside)) := by
    cases hcondition : head.condition <;>
      simp [Selection.pieces, InlineHead.pieces, SelectionSet.pieces, conditionTokens, piecesOf,
        hcondition, Piece.name]
  unfold IsSelection IsDirectives IsSelectionSet
  simp only [optionally_derives_iff, Derives, hpieces, Selection.isWellFormed,
    InlineHead.isWellFormed, SelectionSet.isWellFormed, Bool.and_eq_true, writes_mark,
    writes_append, writes_tokens]
  constructor
  · rintro ⟨⟨⟨hds, hne⟩, hinside⟩, _, rfl, _, _, rfl, rfl, us, vs, rfl, hus, hvs⟩
    exact ⟨us, vs, rfl, ⟨hds, hus⟩, ⟨hne, hinside⟩, hvs⟩
  · rintro ⟨us, vs, rfl, ⟨hds, hus⟩, ⟨hne, hinside⟩, hvs⟩
    exact ⟨⟨⟨hds, hne⟩, hinside⟩, _, rfl, _, _, rfl, rfl, us, vs, rfl, hus, hvs⟩

theorem selectionSet_sound (h : ∀ fields, Sound (selection fields) (IsSelection schema fields))
    (fields : Fields) : Sound (selectionSet selection fields) fun r ts =>
      IsSelectionSet schema fields r.value ts :=
  (Sound.fueled (delimitedSome_sound (h fields))).mono fun _ _ h => isSelectionSet_iff.mpr h

/-- What is found can be selected, and no token is taken for it. -/
theorem findFields_ok {t : Option TypeDef} {found : Fields}
    (h : findFields schema t s = .ok found s') : fieldsOf schema t = found ∧ s = s' := by
  rcases findFields_eq_or schema t with hfound | ⟨hnone, -⟩
  · rw [hfound] at h
    exact pure_ok.mp h
  · rw [hnone] at h
    cases h

theorem inlineFragment_sound (h : ∀ fields, Sound (selection fields) (IsSelection schema fields))
    {start : Position} {condition : Option (Located Text)} {find : Parser Fields} {a : Selection}
    (hfind : ∀ ⦃s found s'⦄, find s = .ok found s' →
      InlineHead.fieldsInside schema fields condition = found ∧ s = s')
    (hp : inlineFragment schema selection start condition find s = .ok a s') :
    ∃ ts, s.values = ts ++ s'.values ∧
      IsSelection schema fields a (.mark .ellipsis :: (conditionTokens condition ++ ts)) := by
  simp only [inlineFragment, bind_ok] at hp
  obtain ⟨ds, s₁, hds, found, s₂, hfound, body, s₃, hbody, hp⟩ := hp
  obtain ⟨rfl, rfl⟩ := hfind hfound
  obtain ⟨rfl, rfl⟩ := pure_ok.mp hp
  obtain ⟨us, hus, hdirectives⟩ := directives?_sound hds
  obtain ⟨vs, hvs, hset⟩ := selectionSet_sound h _ hbody
  refine ⟨us ++ vs, ?_, isSelection_inline_iff.mpr ⟨us, vs, rfl, hdirectives, hset⟩⟩
  rw [hus, hvs, List.append_assoc]

theorem fragmentSelection_sound (h : ∀ fields, Sound (selection fields) (IsSelection schema fields))
    (fields : Fields) :
    Sound (fragmentSelection schema selection fields) (IsSelection schema fields) := by
  intro s a s' hp
  simp only [fragmentSelection, bind_ok, peek_ok] at hp
  obtain ⟨dots, s₁, hdots, _, _, ⟨rfl, rfl⟩, hp⟩ := hp
  have hs := mark_sound hdots
  cases hfront : s₁.front.value with
  | name text =>
    simp only [hfront] at hp
    split_ifs at hp with hon
    · obtain ⟨word, s₂, hword, hp⟩ := bind_ok.mp hp
      obtain ⟨condition, s₃, hcondition, hp⟩ := bind_ok.mp hp
      obtain ⟨ts, hts, hselection⟩ := inlineFragment_sound h (fun _ _ _ => findFields_ok) hp
      refine ⟨_, ?_, hselection⟩
      obtain ⟨hnext, hword⟩ := next_sound hword
      rw [hs, hnext, ← hword, hfront, eq_of_beq hon, name_sound hcondition, hts]
      rfl
    · obtain ⟨n, s₂, hn, hp⟩ := bind_ok.mp hp
      obtain ⟨ds, s₃, hds, hp⟩ := bind_ok.mp hp
      obtain ⟨rfl, rfl⟩ := pure_ok.mp hp
      obtain ⟨us, hus, hdirectives⟩ := directives?_sound hds
      have hname := name_sound hn
      have htext : text = n.value := by
        rw [front_value hname] at hfront
        exact (Token.name.inj hfront).symm
      refine ⟨.mark .ellipsis :: .name n.value :: us, by rw [hs, hname, hus]; rfl,
        isSelection_spread_iff.mpr ⟨us, rfl, ?_, hdirectives⟩⟩
      exact fun heq => hon (by rw [htext, heq, beq_self_eq_true])
  | mark m =>
    cases m
    all_goals simp only [hfront] at hp
    case curlyOpen =>
      obtain ⟨ts, hts, hselection⟩ := inlineFragment_sound h (fun _ _ _ => pure_ok.mp) hp
      exact ⟨_, by rw [hs, hts]; rfl, hselection⟩
    case «at» =>
      obtain ⟨ts, hts, hselection⟩ := inlineFragment_sound h (fun _ _ _ => pure_ok.mp) hp
      exact ⟨_, by rw [hs, hts]; rfl, hselection⟩
    all_goals exact absurd hp unexpected_not_ok
  | scalar l =>
    simp only [hfront] at hp
    exact absurd hp unexpected_not_ok
  | endOfFile =>
    simp only [hfront] at hp
    exact absurd hp unexpected_not_ok

theorem fieldName_sound : Sound fieldName fun r ts => ts = nameTokens r := by
  intro s r s' h
  simp only [fieldName, bind_ok] at h
  obtain ⟨first, s₁, hfirst, o, s₂, hskip, h⟩ := h
  rcases skip?_sound hskip with ⟨colon, rfl, -, hcolon⟩ | ⟨rfl, rfl⟩
  · obtain ⟨n, s₃, hn, h⟩ := bind_ok.mp h
    obtain ⟨rfl, rfl⟩ := pure_ok.mp h
    exact ⟨_, by rw [name_sound hfirst, hcolon, name_sound hn]; rfl, rfl⟩
  · obtain ⟨rfl, rfl⟩ := pure_ok.mp h
    exact ⟨_, name_sound hfirst, rfl⟩

theorem optionally_map_value {L : α → List Token → Prop} {o : Option (Located α)} :
    Optionally (fun r ts => L r.value ts) o ts ↔ Optionally L (o.map (·.value)) ts := by
  cases o <;> rfl

theorem fieldSelection_sound (h : ∀ fields, Sound (selection fields) (IsSelection schema fields))
    (fields : Fields) :
    Sound (fieldSelection schema selection fields) (IsSelection schema fields) := by
  intro s a s' hp
  simp only [fieldSelection, bind_ok] at hp
  obtain ⟨⟨aliasName, n⟩, s₁, hname, args, s₂, hargs, ds, s₃, hds, found, s₄, hfound, body, s₅,
    hbody, hp⟩ := hp
  obtain ⟨rfl, rfl⟩ := findFields_ok hfound
  obtain ⟨rfl, rfl⟩ := pure_ok.mp hp
  obtain ⟨_, hs, rfl⟩ := fieldName_sound hname
  obtain ⟨us, hus, hL⟩ := arguments?_sound hargs
  obtain ⟨vs, hvs, hM⟩ := directives?_sound hds
  obtain ⟨ws, hws, hN⟩ := ifComes_sound (fun _ hset => selectionSet_sound h _ hset) hbody
  refine ⟨nameTokens (aliasName, n) ++ (us ++ (vs ++ ws)), ?_, isSelection_field_iff.mpr
    ⟨us, vs, ws, rfl, hL, hM, optionally_map_value.mp hN⟩⟩
  rw [hs, hus, hvs, hws]
  simp only [List.append_assoc]

/-- Every selection takes what is written of it, however deep the selections below it go. -/
theorem selectionUpTo_sound (fuel : Nat) : ∀ fields,
    Sound (selectionUpTo schema fuel fields) (IsSelection schema fields) := by
  induction fuel with
  | zero => exact fun _ _ _ _ h => absurd h unexpected_not_ok
  | succ fuel ih =>
    intro fields s a s' h
    simp only [selectionUpTo, bind_ok, comes_ok] at h
    obtain ⟨_, _, ⟨-, rfl⟩, h⟩ := h
    split_ifs at h
    · exact fragmentSelection_sound ih fields h
    · exact fieldSelection_sound ih fields h

theorem selections_sound (fields : Fields) : Sound (selections schema fields) fun r ts =>
    IsSelectionSet schema fields r.value ts :=
  Sound.fueled fun fuel => selectionSet_sound (selectionUpTo_sound fuel) fields

/-- The marks that a selection goes on with when they come next. -/
def selectionMarks : List Punctuator := [.colon, .parenOpen, .at, .curlyOpen]

/-- Selections begin with a name or with dots. -/
theorem isSelection_starts {fields : Fields} : Starts (IsSelection schema fields) fun t =>
    t = .mark .ellipsis ∨ ∃ n, t = .name n := by
  intro a ts h
  cases a with
  | field head below =>
    obtain ⟨us, vs, ws, rfl, -⟩ := isSelection_field_iff.mp h
    cases halias : head.aliasName with
    | none => exact ⟨_, _, rfl, .inr ⟨_, rfl⟩⟩
    | some a => exact ⟨_, _, rfl, .inr ⟨_, rfl⟩⟩
  | spread spread =>
    obtain ⟨us, rfl, -⟩ := isSelection_spread_iff.mp h
    exact ⟨_, _, rfl, .inl rfl⟩
  | inline head inside =>
    obtain ⟨us, vs, rfl, -⟩ := isSelection_inline_iff.mp h
    exact ⟨_, _, rfl, .inl rfl⟩

theorem fieldName_complete : Complete fieldName
    (fun r => (r.1.map fun a => Located.unlocated a.value, r.2.value))
    (fun r ts => ts = nameTokens r) (Avoids [.colon]) := by
  rintro s ⟨aliasName, name⟩ ts rest hs rfl hrest
  cases aliasName with
  | none =>
    obtain ⟨n, s₁, hn, hname, hs₁⟩ := name_complete hs
    obtain ⟨t, more, rfl, ht⟩ := hrest
    refine ⟨(none, n), s₁, bind_ok.mpr ⟨n, s₁, hn, bind_ok.mpr ⟨none, s₁, ?_, ?_⟩⟩, ?_, hs₁⟩
    · exact skip?_none hs₁ (ht .colon List.mem_cons_self)
    · exact pure_ok.mpr ⟨rfl, rfl⟩
    · exact congrArg (none, ·) hname
  | some a =>
    obtain ⟨a', s₁, ha, haname, hs₁⟩ := name_complete hs
    obtain ⟨colon, s₂, hcolon, -, hs₂⟩ := skip?_some hs₁
    obtain ⟨n, s₃, hn, hname, hs₃⟩ := name_complete hs₂
    refine ⟨(some a', n), s₃, ?_, ?_, hs₃⟩
    · exact bind_ok.mpr ⟨a', s₁, ha, bind_ok.mpr ⟨some colon, s₂, hcolon,
        bind_ok.mpr ⟨n, s₃, hn, pure_ok.mpr ⟨rfl, rfl⟩⟩⟩⟩
    · simp only [Option.map_some, haname, hname]

section Complete

variable {n : Nat} (h : ∀ fields, Complete (selection fields) Selection.unlocated
  (fun a ts => IsSelection schema fields a ts ∧ ts.length < n) (Avoids selectionMarks))
include h

theorem selectionSet_complete (fields : Fields) : Complete (selectionSet selection fields)
    (fun r => Selection.unlocatedSet r.value)
    (fun r ts => IsSelectionSet schema fields r.value ts ∧ ts.length < n + 1) anything := by
  have hsome : Complete (selectionSet selection fields) _ _ _ :=
    Complete.fueled (delimitedSome_complete (h fields) (fun _ _ h => isSelection_starts h.1)
      (by simp) fun t more ht => ⟨t, more, rfl, fun p hp => ?_⟩)
  · refine (hsome.mono fun r ts ⟨hset, hlen⟩ => ?_).keep fun r r' hsame => ?_
    · rw [unlocatedSet_eq, unlocatedSet_eq, hsame]
    · obtain ⟨hne, hdelimited⟩ := isSelectionSet_iff.mp hset
      exact ⟨hne, hdelimited.shorten hlen⟩
  · rcases ht with rfl | rfl | ⟨name, rfl⟩
    · revert p; decide
    · revert p; decide
    · exact Token.noConfusion

theorem selectionSet?_complete {fields : Fields} {below : Option SelectionSet}
    (hs : s.values = ts ++ rest) (hbelow : Optionally (IsSelectionSet schema fields) below ts)
    (hlen : ts.length < n + 1) (hrest : Avoids selectionMarks rest) :
    ∃ body s', ifComes .curlyOpen (selectionSet selection fields) s = .ok body s' ∧
      (body.map (·.value)).map Selection.unlocatedSet = below.map Selection.unlocatedSet ∧
      s'.values = rest := by
  have hset : Complete (ifComes .curlyOpen (selectionSet selection fields)) _ _
      (Avoids selectionMarks) :=
    ifComes_complete (selectionSet_complete h fields) (fun _ _ hr => isSelectionSet_opens hr.1)
      (by decide) (fun _ _ => trivial)
  have hL : Optionally (fun (r : Located SelectionSet) ts =>
      IsSelectionSet schema fields r.value ts ∧ ts.length < n + 1)
      (below.map fun b => ⟨b, .unlocated⟩) ts := by
    cases below with
    | none => exact hbelow
    | some below => exact ⟨hbelow, hlen⟩
  obtain ⟨body, s', hbody, hsame, hs'⟩ := hset hs hL hrest
  refine ⟨body, s', hbody, ?_, hs'⟩
  rw [Option.map_map] at hsame ⊢
  exact hsame

theorem inlineFragment_complete (start : Position) (condition : Option (Located Text))
    {find : Parser Fields} (hfind : ∀ s, find s = .ok fields s)
    {ds : Option Directives} {inside : SelectionSet} {us vs : List Token}
    (hs : s.values = us ++ (vs ++ rest)) (hds : Optionally (IsDirectives schema) ds us)
    (hinside : IsSelectionSet schema fields inside vs) (hlen : vs.length < n + 1) :
    ∃ a s', inlineFragment schema selection start condition find s = .ok a s' ∧
      a.unlocated = Selection.unlocated (.inline ⟨condition, ds, .unlocated⟩ inside) ∧
      s'.values = rest := by
  have hbrace : Avoids [.at, .parenOpen] (vs ++ rest) := by
    obtain ⟨ws, rfl⟩ := isSelectionSet_opens hinside
    exact ⟨_, _, rfl, by simp⟩
  obtain ⟨ds', s₁, hds', hsame, hs₁⟩ := directives?_complete (by simp) (by simp) hs hds hbrace
  obtain ⟨body, s', hbody, hsames, hs'⟩ := selectionSet_complete h fields
    (a := ⟨inside, .unlocated⟩) hs₁ ⟨hinside, hlen⟩ trivial
  refine ⟨.inline ⟨condition, ds', ⟨start, body.span.stop⟩⟩ body.value, s', ?_, ?_, hs'⟩
  · exact bind_ok.mpr ⟨ds', s₁, hds', bind_ok.mpr ⟨fields, s₁, hfind s₁,
      bind_ok.mpr ⟨body, s', hbody, pure_ok.mpr ⟨rfl, rfl⟩⟩⟩⟩
  · simp only [Selection.unlocated, InlineHead.unlocated, hsame, hsames]

variable (hunions : schema.UnionsEnd)
include hunions

theorem inlineSelection_complete {fields : Fields} {head : InlineHead} {inside : SelectionSet}
    (hs : s.values = ts ++ rest) (ha : IsSelection schema fields (.inline head inside) ts)
    (hlen : ts.length < n + 1) :
    ∃ a' s', fragmentSelection schema selection fields s = .ok a' s' ∧
      a'.unlocated = Selection.unlocated (.inline head inside) ∧ s'.values = rest := by
  obtain ⟨us, vs, rfl, hds, hinside⟩ := isSelection_inline_iff.mp ha
  obtain ⟨dots, s₁, hdots, -, hs₁⟩ := mark_complete hs
  simp only [List.length_cons, List.length_append] at hlen
  simp only [fragmentSelection, bind_ok, peek_ok]
  obtain ⟨condition, directives, span⟩ := head
  cases condition with
  | some condition =>
    obtain ⟨word, s₂, hword, -, hs₂⟩ := next_complete hs₁
    obtain ⟨condition', s₃, hcondition, hname, hs₃⟩ := name_complete hs₂
    obtain ⟨a', s', ha', hsame, hs'⟩ := inlineFragment_complete h dots.span.start
      (some condition') (findFields_of_unionsEnd hunions _)
      (hs₃.trans (List.append_assoc us vs rest)) hds hinside (by omega)
    refine ⟨a', s', ⟨dots, s₁, hdots, _, _, ⟨rfl, rfl⟩, ?_⟩, ?_, hs'⟩
    · rw [front_value hs₁]
      simp only [beq_self_eq_true, if_true]
      refine bind_ok.mpr ⟨word, s₂, hword, bind_ok.mpr ⟨condition', s₃, hcondition, ?_⟩⟩
      rw [hname]
      exact ha'
    · rw [hsame]
      simp only [Selection.unlocated, InlineHead.unlocated, Option.map_some, hname]
  | none =>
    have hs₁ : s₁.values = us ++ (vs ++ rest) := hs₁.trans (List.append_assoc us vs rest)
    obtain ⟨a', s', ha', hsame, hs'⟩ :=
      inlineFragment_complete h dots.span.start none (fun _ => rfl) hs₁ hds hinside (by omega)
    refine ⟨a', s', ⟨dots, s₁, hdots, _, _, ⟨rfl, rfl⟩, ?_⟩, hsame, hs'⟩
    -- What comes next is a directive, or the brace where there are none.
    cases directives with
    | some ds =>
      obtain ⟨ws, rfl⟩ := isDirectives_opens hds
      rw [front_value hs₁]
      exact ha'
    | none =>
      obtain rfl : us = [] := hds
      obtain ⟨ws, rfl⟩ := isSelectionSet_opens hinside
      rw [front_value hs₁]
      exact ha'

theorem fieldSelection_complete {fields : Fields} {head : FieldHead} {below : Option SelectionSet}
    (hs : s.values = ts ++ rest) (ha : IsSelection schema fields (.field head below) ts)
    (hlen : ts.length < n + 1) (hrest : Avoids selectionMarks rest) :
    ∃ a' s', fieldSelection schema selection fields s = .ok a' s' ∧
      a'.unlocated = Selection.unlocated (.field head below) ∧ s'.values = rest := by
  obtain ⟨us, vs, ws, rfl, hargs, hds, hbelow⟩ := isSelection_field_iff.mp ha
  simp only [List.append_assoc] at hs
  simp only [List.length_append] at hlen
  -- What may be left out is told apart by its first mark, so that each part avoids those before.
  have hws : Avoids [.colon, .parenOpen, .at] (ws ++ rest) :=
    hbelow.avoids isSelectionSet_opens (by decide) (hrest.mono (by decide))
  have hvs : Avoids [.colon, .parenOpen] (vs ++ (ws ++ rest)) :=
    hds.avoids isDirectives_opens (by decide) (hws.mono (by decide))
  have hus : Avoids [.colon] (us ++ (vs ++ (ws ++ rest))) :=
    hargs.avoids isArguments_opens (by decide) (hvs.mono (by decide))
  obtain ⟨⟨aliasName, name⟩, s₁, hname, hnames, hs₁⟩ :=
    fieldName_complete (a := (head.aliasName, head.name)) hs rfl hus
  have halias : aliasName.map (fun a => Located.unlocated a.value) =
    head.aliasName.map fun a => .unlocated a.value := (Prod.mk.inj hnames).1
  have hvalue : name.value = head.name.value := (Prod.mk.inj hnames).2
  obtain ⟨args, s₂, hargs', hsame₁, hs₂⟩ := arguments?_complete (by decide) hs₁ hargs hvs
  obtain ⟨ds, s₃, hds', hsame₂, hs₃⟩ := directives?_complete (by decide) (by decide) hs₂ hds hws
  obtain ⟨body, s', hbody, hsame₃, hs'⟩ := selectionSet?_complete h hs₃ hbelow (by omega) hrest
  have hrun : ∃ span, fieldSelection schema selection fields s =
      .ok (.field ⟨aliasName, name, args, ds, span⟩ (body.map (·.value))) s' := by
    refine ⟨_, bind_ok.mpr ⟨(aliasName, name), s₁, hname, bind_ok.mpr ⟨args, s₂, ?_,
      bind_ok.mpr ⟨ds, s₃, hds', bind_ok.mpr ⟨_, s₃, findFields_of_unionsEnd hunions _ s₃,
        bind_ok.mpr ⟨body, s', ?_, pure_ok.mpr ⟨rfl, rfl⟩⟩⟩⟩⟩⟩⟩
    · rw [hvalue]
      exact hargs'
    · rw [hvalue]
      exact hbody
  obtain ⟨span, hrun⟩ := hrun
  refine ⟨_, s', hrun, ?_, hs'⟩
  rw [unlocated_field, unlocated_field, hsame₃]
  simp only [FieldHead.unlocated, halias, hvalue, hsame₁, hsame₂]

end Complete

theorem spreadSelection_complete {fields : Fields} {spread : Spread}
    (hs : s.values = ts ++ rest) (ha : IsSelection schema fields (.spread spread) ts)
    (hrest : Avoids selectionMarks rest) :
    ∃ a' s', fragmentSelection schema selection fields s = .ok a' s' ∧
      a'.unlocated = Selection.unlocated (.spread spread) ∧ s'.values = rest := by
  obtain ⟨us, rfl, hon, hds⟩ := isSelection_spread_iff.mp ha
  obtain ⟨dots, s₁, hdots, -, hs₁⟩ := mark_complete hs
  obtain ⟨n, s₂, hn, hname, hs₂⟩ := name_complete hs₁
  obtain ⟨ds, s', hds', hsame, hs'⟩ :=
    directives?_complete (by decide) (by decide) hs₂ hds hrest
  refine ⟨.spread ⟨n, ds, ⟨dots.span.start, endOf ds n.span⟩⟩, s', ?_, ?_, hs'⟩
  · simp only [fragmentSelection, bind_ok, peek_ok]
    refine ⟨dots, s₁, hdots, _, _, ⟨rfl, rfl⟩, ?_⟩
    rw [front_value hs₁]
    simp only [beq_iff_eq, if_neg hon]
    exact bind_ok.mpr ⟨n, s₂, hn, bind_ok.mpr ⟨ds, s', hds', pure_ok.mpr ⟨rfl, rfl⟩⟩⟩
  · simp only [Selection.unlocated, Spread.unlocated, hname, hsame]

/-- Fuel for the tokens is enough for the selections, which take two tokens for every level. -/
theorem selectionUpTo_complete (hunions : schema.UnionsEnd) (fuel : Nat) : ∀ fields,
    Complete (selectionUpTo schema fuel fields) Selection.unlocated
      (fun a ts => IsSelection schema fields a ts ∧ ts.length < fuel) (Avoids selectionMarks) := by
  induction fuel with
  | zero => rintro fields s a ts rest - ⟨-, hlen⟩; exact absurd hlen (Nat.not_lt_zero _)
  | succ fuel ih =>
    rintro fields s a ts rest hs ⟨ha, hlen⟩ hrest
    simp only [selectionUpTo, bind_ok]
    cases a with
    | field head below =>
      obtain ⟨a', s', ha', hsame, hs'⟩ := fieldSelection_complete ih hunions hs ha hlen hrest
      obtain ⟨us, vs, ws, rfl, -⟩ := isSelection_field_iff.mp ha
      refine ⟨a', s', ⟨false, s, ?_, ha'⟩, hsame, hs'⟩
      cases halias : head.aliasName <;> rw [halias] at hs <;> exact comes_false hs nofun
    | spread spread =>
      obtain ⟨a', s', ha', hsame, hs'⟩ := spreadSelection_complete hs ha hrest
      obtain ⟨us, rfl, -⟩ := isSelection_spread_iff.mp ha
      exact ⟨a', s', ⟨true, s, comes_true hs, ha'⟩, hsame, hs'⟩
    | inline head inside =>
      obtain ⟨a', s', ha', hsame, hs'⟩ := inlineSelection_complete ih hunions hs ha hlen
      obtain ⟨us, vs, rfl, -⟩ := isSelection_inline_iff.mp ha
      exact ⟨a', s', ⟨true, s, comes_true hs, ha'⟩, hsame, hs'⟩

theorem selections_complete (hunions : schema.UnionsEnd) (fields : Fields) :
    Complete (selections schema fields) (fun r => Selection.unlocatedSet r.value)
      (fun r ts => IsSelectionSet schema fields r.value ts) anything :=
  Complete.fueled fun fuel =>
    (selectionSet_complete (selectionUpTo_complete hunions fuel) fields).mono
      fun _ _ h => ⟨h.1, by omega⟩

end Parser

end GraphQL
