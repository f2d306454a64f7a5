import GraphQL.Proofs.Document.LaidOut

/-! The parser brackets what it takes, up to directives: the spans it stores are those of the tokens
that each part is read from. -/

namespace GraphQL

open Layout GraphQL.Span

namespace Layout

variable {schema : Schema} {ls : List Layout} {ts us : List (Located Token)} {span : Span}

theorem Stand.mark (m : Punctuator) (span : Span) (h : Stand schema ls ts) :
    Stand schema (.mark m :: ls) (⟨.mark m, span⟩ :: ts) :=
  .piece (.token _) h

theorem Stand.name (n : Text) (span : Span) (h : Stand schema ls ts) :
    Stand schema (.name n :: ls) (⟨.name n, span⟩ :: ts) :=
  .piece (.token _) h

theorem Stand.word (n : Located Text) (h : Stand schema ls ts) :
    Stand schema (word n :: ls) (⟨.name n.value, n.span⟩ :: ts) := by
  have hword : Stand schema [.name n.value] [⟨.name n.value, n.span⟩] := Stand.nil.name _ _
  exact .part hword (hull?_cons _ []) h

/-- Layouts between marks, with the span from one to the other. -/
theorem Stand.between {opening closing : Punctuator} {first last : Span}
    (h : Stand schema ls ts) :
    Stand schema [.part ⟨first.start, last.stop⟩ (between opening closing ls)]
      (⟨.mark opening, first⟩ :: (ts ++ [⟨.mark closing, last⟩])) := by
  apply stand_part_iff.mpr
  constructor
  · exact (h.append (Stand.nil.mark closing last)).mark opening first
  · rw [hull?_cons, stopAfter_append]
    rfl

/-- Tokens stand for themselves. -/
theorem stand_tokens_iff {tokens : List Token} :
    Stand schema (tokens.map fun t => .piece (.token t)) ts ↔ ts.map (·.value) = tokens := by
  induction tokens generalizing ts with
  | nil =>
    constructor
    · intro h
      cases h
      rfl
    · intro h
      rw [List.map_eq_nil_iff.mp h]
      exact .nil
  | cons t tokens ih =>
    constructor
    · intro h
      cases h with
      | piece hfits hrest => rw [List.map_cons, fits_token.mp hfits, ih.mp hrest]
    · intro h
      obtain ⟨a, us, rfl, rfl, hus⟩ := List.map_eq_cons_iff.mp h
      exact .piece (.token _) (ih.mpr hus)

/-- Parts side by side end where the last of them does. -/
theorem Stand.stopAfter (h : Stand schema ls ts) (hparts : ∀ l ∈ ls, l.span?.isSome)
    (before : Position) :
    stopAfter before ts = ((spans ls).getLast?.map (·.stop)).getD before := by
  induction h generalizing before with
  | nil => rfl
  | piece => exact absurd (hparts _ List.mem_cons_self) (by simp [span?])
  | @part span inside ls us ts hinside hspan hrest _ ih =>
    have hmore : ∀ l ∈ ls, l.span?.isSome := fun l hl => hparts l (List.mem_cons_of_mem _ hl)
    rw [stopAfter_append, stopAfter_of_hull? hspan, ih hmore span.stop, spans_part,
      List.getLast?_cons]
    cases (spans ls).getLast? <;> rfl

end Layout

namespace Parser

variable {schema : Schema} {α : Type} {s s' : Tokens} {p : Parser α} {m : Punctuator}
  {f : α → List Layout}

/-- Whatever `p` takes stands as the layouts of its answer. -/
def Lays (schema : Schema) (p : Parser α) (f : α → List Layout) : Prop :=
  ∀ ⦃s a s'⦄, p s = .ok a s' → ∃ ts, s.pending = ts ++ s'.pending ∧ Stand schema (f a) ts

/-! ### Steps -/

theorem next_takes {t : Located Token} (h : next s = .ok t s') :
    s.pending = t :: s'.pending := by
  unfold next at h
  cases hp : s.pending with
  | nil => simp [hp] at h
  | cons u rest =>
    simp only [hp] at h
    cases h
    rfl

theorem mark_takes {t : Located Token} (h : mark m s = .ok t s') :
    s.pending = ⟨.mark m, t.span⟩ :: s'.pending := by
  have hvalues := mark_sound h
  simp only [mark, expect, bind_ok, peek_ok] at h
  obtain ⟨_, _, ⟨rfl, rfl⟩, h⟩ := h
  split at h
  · have htakes := next_takes h
    rw [Tokens.values, htakes, List.map_cons] at hvalues
    have ht : t.value = .mark m := (List.cons.inj hvalues).1
    rw [htakes, ← ht]
  · exact absurd h unexpected_not_ok

theorem name_takes {n : Located Text} (h : name s = .ok n s') :
    s.pending = ⟨.name n.value, n.span⟩ :: s'.pending := by
  simp only [name, bind_ok] at h
  obtain ⟨t, s₁, hnext, h⟩ := h
  have htakes := next_takes hnext
  cases ht : t.value with
  | name text =>
    simp only [ht] at h
    obtain ⟨rfl, rfl⟩ := pure_ok.mp h
    rw [htakes, ← ht]
  | _ =>
    simp only [ht] at h
    exact absurd h failAt_not_ok

theorem skip?_takes {o : Option (Located Token)} (h : skip? (.mark m) s = .ok o s') :
    (∃ t, o = some t ∧ s.pending = ⟨.mark m, t.span⟩ :: s'.pending) ∨ (o = none ∧ s = s') := by
  rw [skip?] at h
  cases hp : s.pending with
  | nil => simp [hp] at h
  | cons t rest =>
    simp only [hp] at h
    split at h
    · next hkind =>
      cases h
      have ht : t.value = .mark m := kind_eq_mark.mp hkind
      left
      refine ⟨t, rfl, ?_⟩
      rw [← ht]
    · cases h
      right
      exact ⟨rfl, rfl⟩

theorem Lays.fueled {p : Nat → Parser α} (h : ∀ fuel, Lays schema (p fuel) f) :
    Lays schema (fueled p) f :=
  fun _ _ _ hp => h _ hp

/-- What may be left out is laid out where it is not. -/
theorem ifComes_lays (h : Lays schema p f) : Lays schema (ifComes m p) (optional f) := by
  intro s o s' hp
  simp only [ifComes, bind_ok, comes_ok] at hp
  obtain ⟨_, _, ⟨-, rfl⟩, hp⟩ := hp
  split at hp
  · obtain ⟨a, ha, rfl⟩ := map_ok.mp hp
    exact h ha
  · obtain ⟨rfl, rfl⟩ := pure_ok.mp hp
    exact ⟨[], rfl, .nil⟩

theorem itemsUntil_lays {closing : Punctuator} (h : Lays schema p f) (fuel : Nat)
    {r : List α × Located Token} (hp : itemsUntil (.mark closing) p fuel s = .ok r s') :
    ∃ ts, s.pending = ts ++ ⟨.mark closing, r.2.span⟩ :: s'.pending ∧
      Stand schema (r.1.flatMap f) ts := by
  induction fuel generalizing s r with
  | zero => exact absurd hp unexpected_not_ok
  | succ fuel ih =>
    simp only [itemsUntil, bind_ok] at hp
    obtain ⟨o, s₁, hskip, hp⟩ := hp
    rcases skip?_takes hskip with ⟨t, rfl, hs⟩ | ⟨rfl, rfl⟩
    · obtain ⟨rfl, rfl⟩ := pure_ok.mp hp
      exact ⟨[], hs, .nil⟩
    · obtain ⟨a, s₂, hitem, hp⟩ := bind_ok.mp hp
      obtain ⟨⟨rest, close⟩, s₃, hrest, hp⟩ := bind_ok.mp hp
      obtain ⟨rfl, rfl⟩ := pure_ok.mp hp
      obtain ⟨us, hus, ha⟩ := h hitem
      obtain ⟨vs, hvs, hitems⟩ := ih hrest
      refine ⟨us ++ vs, ?_, ?_⟩
      · rw [hus, hvs, List.append_assoc]
      · rw [List.flatMap_cons]
        exact ha.append hitems

theorem delimited_lays {opening closing : Punctuator} (h : Lays schema p f) (fuel : Nat) :
    Lays schema (delimited (.mark opening) (.mark closing) p fuel) fun r =>
      [.part r.span (between opening closing (r.value.flatMap f))] := by
  intro s r s' hp
  simp only [delimited, bind_ok] at hp
  obtain ⟨first, s₁, hfirst, ⟨items, last⟩, s₂, hitems, hp⟩ := hp
  obtain ⟨rfl, rfl⟩ := pure_ok.mp hp
  obtain ⟨ts, hts, hstand⟩ := itemsUntil_lays h fuel hitems
  refine ⟨⟨.mark opening, first.span⟩ :: (ts ++ [⟨.mark closing, last.span⟩]), ?_,
    hstand.between⟩
  rw [mark_takes hfirst, hts]
  simp only [List.cons_append, List.append_assoc, List.nil_append]

theorem delimitedSome_lays {opening closing : Punctuator} (h : Lays schema p f) (fuel : Nat) :
    Lays schema (delimitedSome (.mark opening) (.mark closing) p fuel) fun r =>
      [.part r.span (between opening closing (r.value.flatMap f))] := by
  intro s r s' hp
  simp only [delimitedSome, someUntil, bind_ok, Prod.exists, pure_ok, Prod.mk.injEq] at hp
  obtain ⟨first, s₁, hfirst, items, last, s₂, ⟨a, s₃, ha, as, close, s₄, has, ⟨rfl, rfl⟩, rfl⟩, rfl,
    rfl⟩ := hp
  obtain ⟨us, hus, hstand⟩ := h ha
  obtain ⟨vs, hvs, hstands⟩ := itemsUntil_lays h fuel has
  have hitems : Stand schema ((a :: as).flatMap f) (us ++ vs) := by
    rw [List.flatMap_cons]
    exact hstand.append hstands
  refine ⟨⟨.mark opening, first.span⟩ :: (us ++ vs ++ [⟨.mark closing, close.span⟩]), ?_,
    hitems.between⟩
  rw [mark_takes hfirst, hus, hvs]
  simp only [List.cons_append, List.append_assoc, List.nil_append]

/-! ### References to types -/

/-- The mark of a type that refuses null makes its span longer. -/
theorem required_lays {t t' : Located TypeRef} {us : List (Located Token)}
    (ht : t.value.isNonNull = false) (hus : Stand schema [TypeRef.layout t] us)
    (h : required t s = .ok t' s') :
    ∃ vs, s.pending = vs ++ s'.pending ∧ Stand schema [TypeRef.layout t'] (us ++ vs) := by
  have htokens := required_sound ht h
  obtain ⟨_, hvalues, -, htokens⟩ := htokens
  obtain ⟨hinside, hspan⟩ := stand_part_iff.mp hus
  have hvalue := stand_tokens_iff.mp hinside
  simp only [required, bind_ok, comes_ok] at h
  obtain ⟨_, _, ⟨rfl, rfl⟩, h⟩ := h
  split at h
  · obtain ⟨bang, s₁, hbang, h⟩ := bind_ok.mp h
    obtain ⟨rfl, rfl⟩ := pure_ok.mp h
    have htakes := mark_takes hbang
    refine ⟨[⟨.mark .exclamationMark, bang.span⟩], htakes, ?_⟩
    apply stand_part_iff.mpr
    constructor
    · apply stand_tokens_iff.mpr
      rw [mark_sound hbang] at hvalues
      have hts : [Token.mark .exclamationMark] = _ := List.append_cancel_right hvalues
      rw [List.map_append, hvalue, htokens, ← hts]
      rfl
    · rw [hull?_append hspan]
      rfl
  · obtain ⟨rfl, rfl⟩ := pure_ok.mp h
    refine ⟨[], rfl, ?_⟩
    rw [List.append_nil]
    exact hus

theorem typeRefUpTo_lays (fuel : Nat) :
    Lays schema (typeRefUpTo fuel) fun t => [TypeRef.layout t] := by
  induction fuel with
  | zero => exact fun _ _ _ h => absurd h unexpected_not_ok
  | succ fuel ih =>
    intro s t s' h
    simp only [typeRefUpTo, bind_ok] at h
    obtain ⟨o, s₁, hskip, h⟩ := h
    rcases skip?_takes hskip with ⟨first, rfl, hs⟩ | ⟨rfl, rfl⟩
    · obtain ⟨element, s₂, helement, h⟩ := bind_ok.mp h
      obtain ⟨last, s₃, hlast, h⟩ := bind_ok.mp h
      obtain ⟨us, hus, hstand⟩ := ih helement
      have hvalue := stand_tokens_iff.mp (stand_part_iff.mp hstand).1
      have hlist : Stand schema
          [TypeRef.layout ⟨.list element.value none false, ⟨first.span.start, last.span.stop⟩⟩]
          (⟨.mark .bracketOpen, first.span⟩ :: (us ++ [⟨.mark .bracketClose, last.span⟩])) := by
        apply stand_part_iff.mpr
        constructor
        · apply stand_tokens_iff.mpr
          rw [List.map_cons, List.map_append, hvalue]
          rfl
        · rw [hull?_cons, stopAfter_append]
          rfl
      obtain ⟨vs, hvs, hrequired⟩ := required_lays rfl hlist h
      refine ⟨_, ?_, hrequired⟩
      rw [hs, hus, mark_takes hlast, hvs]
      simp only [List.cons_append, List.append_assoc, List.nil_append]
    · obtain ⟨n, s₂, hn, h⟩ := bind_ok.mp h
      have hnamed : Stand schema [TypeRef.layout ⟨.named n.value false, n.span⟩]
          [⟨.name n.value, n.span⟩] := Stand.nil.word n
      obtain ⟨vs, hvs, hrequired⟩ := required_lays rfl hnamed h
      refine ⟨_, ?_, hrequired⟩
      rw [name_takes hn, hvs]
      rfl

theorem typeRef_lays : Lays schema typeRef fun t => [TypeRef.layout t] :=
  Lays.fueled typeRefUpTo_lays

/-! ### Literals -/

theorem itemLayouts_eq (expected : Option TypeDef) (items : List (Located InputValue)) :
    InputValue.itemLayouts schema expected items =
      items.flatMap fun v => [InputValue.layout schema expected v] := by
  induction items with
  | nil => rfl
  | cons v items ih => rw [List.flatMap_cons, ← ih]; rfl

/-- The layouts of a key with its value. -/
def entryLayout (schema : Schema) (expected : Text → Option TypeDef)
    (kv : Located Text × Located InputValue) : List Layout :=
  [word kv.1, .mark .colon, InputValue.layout schema (expected kv.1.value) kv.2]

theorem entryLayouts_eq (expected : Text → Option TypeDef)
    (entries : List (Located Text × Located InputValue)) :
    InputValue.entryLayouts schema expected entries =
      entries.flatMap (entryLayout schema expected) := by
  induction entries with
  | nil => rfl
  | cons kv entries ih => rw [List.flatMap_cons, ← ih]; rfl

theorem entry_lays {expected : Text → Option TypeDef} {value : Text → Parser (Located InputValue)}
    (h : ∀ key, Lays schema (value key) fun v => [InputValue.layout schema (expected key) v]) :
    Lays schema (entry value) (entryLayout schema expected) := by
  intro s kv s' hp
  simp only [entry, bind_ok] at hp
  obtain ⟨key, s₁, hkey, colon, s₂, hcolon, v, s₃, hv, hp⟩ := hp
  obtain ⟨rfl, rfl⟩ := pure_ok.mp hp
  obtain ⟨ts, hts, hstand⟩ := h key.value hv
  refine ⟨⟨.name key.value, key.span⟩ :: ⟨.mark .colon, colon.span⟩ :: ts, ?_,
    (hstand.mark .colon colon.span).word key⟩
  rw [name_takes hkey, mark_takes hcolon, hts]
  rfl

/-- A value that is written as one token. -/
theorem stand_layout {v : InputValue} {expected : Option TypeDef} {t : Located Token} {piece : Piece}
    (hv : v.layouts schema expected = [.piece piece]) (hfits : piece.Fits schema t.value) :
    Stand schema [InputValue.layout schema expected ⟨v, t.span⟩] [t] := by
  apply stand_part_iff.mpr
  constructor
  · show Stand schema (v.layouts schema expected) [t]
    rw [hv]
    exact .piece hfits .nil
  · exact hull?_cons t []

theorem nameValue_layout {expected : Option TypeDef} {t : Located Token} {text : Text}
    (ht : t.value = .name text) :
    Stand schema [InputValue.layout schema expected ⟨nameValue text, t.span⟩] [t] := by
  have hname : Piece.Fits schema t.value (.name text) := ht ▸ .token _
  unfold nameValue
  split_ifs with htrue hfalse hnull
  · apply stand_layout rfl
    rw [ht, eq_of_beq htrue]
    exact .boolean expected true
  · apply stand_layout rfl
    rw [ht, eq_of_beq hfalse]
    exact .boolean expected false
  · rw [eq_of_beq hnull] at hname
    exact stand_layout rfl hname
  · exact stand_layout rfl hname

theorem scalarLiteral_lays {expected : Option TypeDef} {l : Literal} {v : Located InputValue}
    (hs : s.front.value = .scalar l) (h : scalarLiteral schema expected l s = .ok v s') :
    ∃ ts, s.pending = ts ++ s'.pending ∧
      Stand schema [InputValue.layout schema expected v] ts := by
  simp only [scalarLiteral, bind_ok] at h
  obtain ⟨t, s₁, ht, h⟩ := h
  have hfront := (next_sound ht).2
  cases hread : schema.readScalar (expected.bind TypeDef.scalar?) l with
  | error e =>
    rw [hread] at h
    exact absurd h failAt_not_ok
  | ok value =>
    rw [hread] at h
    obtain ⟨rfl, rfl⟩ := pure_ok.mp h
    refine ⟨[t], next_takes ht, ?_⟩
    apply stand_layout rfl
    rw [← hfront, hs]
    exact .literal hread

theorem variableRef_lays {expected : Option TypeDef} :
    Lays schema variableRef fun v => [InputValue.layout schema expected v] := by
  intro s v s' h
  simp only [variableRef, bind_ok] at h
  obtain ⟨dollar, s₁, hdollar, n, s₂, hn, h⟩ := h
  obtain ⟨rfl, rfl⟩ := pure_ok.mp h
  refine ⟨[⟨.mark .dollar, dollar.span⟩, ⟨.name n.value, n.span⟩], ?_, ?_⟩
  · rw [mark_takes hdollar, name_takes hn]
    rfl
  · apply stand_part_iff.mpr
    exact ⟨(Stand.nil.name n.value n.span).mark .dollar dollar.span, rfl⟩

theorem literalUpTo_lays (isConst : Bool) (fuel : Nat) : ∀ expected,
    Lays schema (literalUpTo schema isConst fuel expected) fun v =>
      [InputValue.layout schema expected v] := by
  induction fuel with
  | zero => exact fun _ _ _ _ h => absurd h unexpected_not_ok
  | succ fuel ih =>
    intro expected s v s' h
    simp only [literalUpTo, bind_ok, peek_ok] at h
    obtain ⟨_, _, ⟨rfl, rfl⟩, h⟩ := h
    cases hfront : s.front.value with
    | endOfFile =>
      simp only [hfront] at h
      exact absurd h unexpected_not_ok
    | scalar l =>
      simp only [hfront] at h
      exact scalarLiteral_lays hfront h
    | name text =>
      simp only [hfront, bind_ok] at h
      obtain ⟨t, s₁, ht, h⟩ := h
      obtain ⟨rfl, rfl⟩ := pure_ok.mp h
      have hvalue : t.value = .name text := by rw [← (next_sound ht).2, hfront]
      exact ⟨[t], next_takes ht, nameValue_layout hvalue⟩
    | mark m =>
      cases m
      all_goals simp only [hfront] at h
      case bracketOpen =>
        obtain ⟨items, hitems, rfl⟩ := map_ok.mp h
        obtain ⟨ts, hts, hstand⟩ := Lays.fueled (delimited_lays (ih expected)) hitems
        refine ⟨ts, hts, ?_⟩
        show Stand schema [.part items.span (between .bracketOpen .bracketClose
          (InputValue.itemLayouts schema expected items.value))] ts
        rw [itemLayouts_eq]
        exact hstand
      case curlyOpen =>
        split_ifs at h
        · obtain ⟨entries, hentries, rfl⟩ := map_ok.mp h
          have hentry := fun key => ih (fieldType schema expected key)
          obtain ⟨ts, hts, hstand⟩ := Lays.fueled (delimited_lays (entry_lays hentry)) hentries
          refine ⟨ts, hts, ?_⟩
          show Stand schema [.part entries.span (between .curlyOpen .curlyClose
            (InputValue.entryLayouts schema (fieldType schema expected) entries.value))] ts
          rw [entryLayouts_eq]
          exact hstand
        · exact absurd h unexpected_not_ok
      case dollar =>
        split_ifs at h
        · exact absurd h unexpected_not_ok
        · exact variableRef_lays h
      all_goals exact absurd h unexpected_not_ok

theorem literal_lays (isConst : Bool) (expected : Option TypeDef) :
    Lays schema (literal schema isConst expected) fun v =>
      [InputValue.layout schema expected v] :=
  Lays.fueled fun fuel => literalUpTo_lays isConst fuel expected

/-! ### Arguments and directives -/

theorem arguments?_lays (defs : List ArgumentDef) :
    Lays schema (arguments? schema defs) (argumentLayouts schema defs) := by
  apply ifComes_lays
  intro s args s' h
  have hentry : Lays schema _ _ :=
    entry_lays fun key => literal_lays false (argumentType schema defs key)
  obtain ⟨ts, hts, hstand⟩ := Lays.fueled (delimitedSome_lays hentry) h
  refine ⟨ts, hts, ?_⟩
  show Stand schema [.part args.span (between .parenOpen .parenClose
    (InputValue.entryLayouts schema (argumentType schema defs) args.value))] ts
  rw [entryLayouts_eq]
  exact hstand

/-- Arguments end at their closing parenthesis. -/
theorem stopAfter_arguments {defs : List ArgumentDef} {args : Option (Located Arguments)}
    {ts : List (Located Token)} (h : Stand schema (argumentLayouts schema defs args) ts)
    (before : Span) : stopAfter before.stop ts = ((args.map (·.span)).getD before).stop := by
  cases args with
  | none =>
    cases h
    rfl
  | some args => exact stopAfter_of_hull? (stand_part_iff.mp h).2 before.stop

theorem directive_lays : Lays schema (directive schema) fun d => [Directive.layout schema d] := by
  intro s d s' h
  simp only [directive, bind_ok] at h
  obtain ⟨first, s₁, hfirst, n, s₂, hn, args, s₃, hargs, h⟩ := h
  obtain ⟨rfl, rfl⟩ := pure_ok.mp h
  obtain ⟨us, hus, hstand⟩ := arguments?_lays _ hargs
  refine ⟨⟨.mark .at, first.span⟩ :: ⟨.name n.value, n.span⟩ :: us, ?_, ?_⟩
  · rw [mark_takes hfirst, name_takes hn, hus]
    rfl
  · apply stand_part_iff.mpr
    constructor
    · exact (hstand.word n).mark .at first.span
    · rw [hull?_cons, stopAfter_cons, stopAfter_arguments hstand]

theorem directivesUpTo_lays (fuel : Nat) :
    Lays schema (directivesUpTo schema fuel) fun ds => ds.map (Directive.layout schema) := by
  induction fuel with
  | zero =>
    intro s ds s' h
    obtain ⟨rfl, rfl⟩ := pure_ok.mp h
    exact ⟨[], rfl, .nil⟩
  | succ fuel ih =>
    intro s ds s' h
    simp only [directivesUpTo, bind_ok, comes_ok] at h
    obtain ⟨_, _, ⟨-, rfl⟩, h⟩ := h
    split at h
    · obtain ⟨d, s₁, hd, h⟩ := bind_ok.mp h
      obtain ⟨more, s₂, hmore, h⟩ := bind_ok.mp h
      obtain ⟨rfl, rfl⟩ := pure_ok.mp h
      obtain ⟨us, hus, hstand⟩ := directive_lays hd
      obtain ⟨vs, hvs, hstands⟩ := ih hmore
      refine ⟨us ++ vs, ?_, hstand.append hstands⟩
      rw [hus, hvs, List.append_assoc]
    · obtain ⟨rfl, rfl⟩ := pure_ok.mp h
      exact ⟨[], rfl, .nil⟩

theorem directives?_lays : Lays schema (directives? schema) (directiveLayouts schema) :=
  ifComes_lays (Lays.fueled directivesUpTo_lays)

/-- Directives end with the last of them. -/
theorem stopAfter_directives {ds : Option Directives} {ts : List (Located Token)}
    (h : Stand schema (directiveLayouts schema ds) ts) (before : Span) :
    stopAfter before.stop ts = endOf ds before := by
  cases ds with
  | none =>
    cases h
    rfl
  | some ds =>
    have hparts : ∀ l ∈ ds.map (Directive.layout schema), l.span?.isSome := by
      intro l hl
      obtain ⟨d, -, rfl⟩ := List.mem_map.mp hl
      rfl
    have hspans : spans (ds.map (Directive.layout schema)) = ds.map (·.span) := by
      unfold spans
      rw [List.filterMap_map, ← List.filterMap_eq_map]
      rfl
    have hrow : Stand schema (ds.map (Directive.layout schema)) ts := h
    have hstop := hrow.stopAfter hparts before.stop
    rw [hspans, List.getLast?_map, Option.map_map] at hstop
    exact hstop

end Parser

end GraphQL
