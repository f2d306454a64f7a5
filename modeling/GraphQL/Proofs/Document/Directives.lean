import GraphQL.Proofs.Document.Literals

/-! Arguments and directives: the parser reads exactly what renders as one. What may be left out is
told apart by its first mark. -/

namespace GraphQL

namespace Parser

variable {schema : Schema} {α β γ : Type} {s s' : Tokens} {ts rest : List Token} {p : Parser α}
  {m : Punctuator} {marks : List Punctuator}

/-! ### Parts that may be left out -/

section Optional

variable {e : α → β} {L : α → List Token → Prop} {follow : List Token → Prop}

theorem ifComes_sound (h : ∀ {s a s'}, s.front.value = .mark m → p s = .ok a s' →
    ∃ ts, s.values = ts ++ s'.values ∧ L a ts) : Sound (ifComes m p) (Optionally L) := by
  intro s o s' hp
  simp only [ifComes, bind_ok, comes_ok] at hp
  obtain ⟨_, _, ⟨hcomes, rfl⟩, hp⟩ := hp
  split at hp
  · next htrue =>
    obtain ⟨a, ha, rfl⟩ := map_ok.mp hp
    exact h (kind_eq_mark.mp (hcomes.trans htrue)) ha
  · obtain ⟨rfl, rfl⟩ := pure_ok.mp hp
    exact ⟨[], rfl, rfl⟩

theorem ifComes_complete (h : Complete p e L follow)
    (hopens : Opens L m) (hm : m ∈ marks)
    (hfollow : ∀ rest, Avoids marks rest → follow rest) :
    Complete (ifComes m p) (Option.map e) (Optionally L) (Avoids marks) := by
  intro s o ts rest hs hL hrest
  cases o with
  | none =>
    obtain rfl : ts = [] := hL
    obtain ⟨t, more, rfl, ht⟩ := hrest
    have hcomes := comes_false hs (ht m hm)
    exact ⟨none, s, bind_ok.mpr ⟨false, s, hcomes, pure_ok.mpr ⟨rfl, rfl⟩⟩, rfl, hs⟩
  | some a =>
    obtain ⟨us, rfl⟩ := hopens hL
    obtain ⟨a', s', ha', hsame, hs'⟩ := h hs hL (hfollow _ hrest)
    exact ⟨some a', s', bind_ok.mpr ⟨true, s, comes_true hs, map_ok.mpr ⟨a', ha', rfl⟩⟩,
      congrArg some hsame, hs'⟩

theorem optionally_derives_iff {wf : α → Bool} {pieces : α → List Piece} {o : Option α} :
    Optionally (Derives schema wf pieces) o ts ↔
      whenPresent wf o = true ∧ Writes schema (piecesOf pieces o) ts := by
  cases o with
  | none => simp [Optionally, whenPresent, piecesOf]
  | some a => rfl

/-- What follows a part that may be left out is its own beginning, or what follows if it is. -/
theorem Optionally.avoids {o : Option α} (h : Optionally L o ts)
    (hopens : Opens L m) (hm : m ∉ marks)
    (hrest : Avoids marks rest) : Avoids marks (ts ++ rest) := by
  cases o with
  | none =>
    obtain rfl : ts = [] := h
    exact hrest
  | some a =>
    obtain ⟨us, rfl⟩ := hopens h
    refine ⟨_, us ++ rest, rfl, fun p hp hmark => hm ?_⟩
    rwa [Token.mark.inj hmark]

theorem Optionally.mark {o : Option α} (h : Optionally L o ts)
    (hopens : Opens L m)
    (hrest : ∃ p more, rest = .mark p :: more) : ∃ p more, ts ++ rest = .mark p :: more := by
  cases o with
  | none =>
    obtain rfl : ts = [] := h
    exact hrest
  | some a =>
    obtain ⟨us, rfl⟩ := hopens h
    exact ⟨_, _, rfl⟩

/-- A parser that keeps some of a value keeps whatever depends on it alone. -/
theorem Complete.keep {e' : α → γ} (h : Complete p e L follow)
    (he : ∀ a a', e a = e a' → e' a = e' a') : Complete p e' L follow := by
  intro s a ts rest hs hL hrest
  obtain ⟨a', s', hp, hsame, hs'⟩ := h hs hL hrest
  exact ⟨a', s', hp, he _ _ hsame, hs'⟩

end Optional

/-! ### Arguments -/

/-- Tokens of arguments of some definitions. -/
def IsArguments (schema : Schema) (defs : List ArgumentDef) :
    Located Arguments → List Token → Prop :=
  Derives schema (fun args => args.value.isWellFormed schema defs)
    fun args => args.value.pieces schema defs

variable {defs : List ArgumentDef}

theorem isArguments_iff {args : Located Arguments} : IsArguments schema defs args ts ↔
    args.value ≠ [] ∧ Delimited .parenOpen .parenClose
      (IsEntry schema false (argumentType schema defs)) args ts := by
  unfold IsArguments IsEntry
  rw [delimited_derives_iff]
  simp [Derives, Arguments.isWellFormed, Arguments.pieces, entriesWellFormed_eq, entryPieces_eq,
    and_assoc]

theorem isArguments_opens : Opens (IsArguments schema defs) .parenOpen := by
  intro args ts h
  obtain ⟨-, us, rfl, -⟩ := isArguments_iff.mp h
  exact ⟨us, rfl⟩

theorem arguments?_sound :
    Sound (arguments? schema defs) (Optionally (IsArguments schema defs)) := by
  refine ifComes_sound fun _ hp => ?_
  obtain ⟨ts, hts, h⟩ := Sound.fueled
    (delimitedSome_sound (entry_sound fun key => literal_sound (argumentType schema defs key))) hp
  exact ⟨ts, hts, isArguments_iff.mpr h⟩

theorem arguments?_complete (hm : .parenOpen ∈ marks) : Complete (arguments? schema defs)
    (Option.map fun args => Located.unlocated args.value.unlocated)
    (Optionally (IsArguments schema defs)) (Avoids marks) := by
  have hentry : Complete (entry fun key => literal schema false (argumentType schema defs key))
      bareEntry (IsEntry schema false (argumentType schema defs)) anything :=
    Complete.unbounded fun _ => entry_complete fun _ => (literal_complete _).mono fun _ _ h => h.1
  have hsome : Complete (fueled (delimitedSome (.mark .parenOpen) (.mark .parenClose) _)) _ _ _ :=
    Complete.fueled (delimitedSome_complete hentry isEntry_starts (fun ⟨_, h⟩ => nomatch h)
      fun _ _ _ => trivial)
  refine ifComes_complete ((hsome.mono fun _ _ h => isArguments_iff.mp h).keep
    fun args args' hsame => ?_) isArguments_opens hm fun _ _ => trivial
  simp only [Arguments.unlocated, unlocatedEntries_eq, hsame]

/-! ### Directives -/

def IsDirective (schema : Schema) : Located Directive → List Token → Prop :=
  Derives schema (fun d => d.value.isWellFormed schema) fun d => d.value.pieces schema

def IsDirectives (schema : Schema) : Directives → List Token → Prop :=
  Derives schema (Directives.isWellFormed schema) (Directives.pieces schema)

theorem isDirective_iff {d : Located Directive} : IsDirective schema d ts ↔
    ∃ us, ts = .mark .at :: .name d.value.name.value :: us ∧
      Optionally (IsArguments schema (Directive.argumentDefs schema d.value.name.value))
        d.value.arguments us := by
  unfold IsArguments
  simp only [optionally_derives_iff, IsDirective, Derives, Directive.isWellFormed, Directive.pieces,
    writes_mark, writes_name]
  constructor
  · rintro ⟨hwf, _, rfl, us, rfl, hwrites⟩
    exact ⟨us, rfl, hwf, hwrites⟩
  · rintro ⟨us, rfl, hwf, hwrites⟩
    exact ⟨hwf, _, rfl, us, rfl, hwrites⟩

theorem isDirectives_iff {ds : Directives} :
    IsDirectives schema ds ts ↔ ds ≠ [] ∧ Items (IsDirective schema) ds ts := by
  unfold IsDirectives IsDirective
  rw [items_derives_iff]
  simp [Derives, Directives.isWellFormed, Directives.pieces, and_assoc]

theorem isDirectives_opens : Opens (IsDirectives schema) .at := by
  intro ds ts h
  obtain ⟨hne, hitems⟩ := isDirectives_iff.mp h
  cases ds with
  | nil => exact absurd rfl hne
  | cons d ds =>
    obtain ⟨_, vs, rfl, hd, -⟩ := items_cons_iff.mp hitems
    obtain ⟨us, rfl, -⟩ := isDirective_iff.mp hd
    exact ⟨_, rfl⟩

theorem directive_sound : Sound (directive schema) (IsDirective schema) := by
  intro s d s' h
  simp only [directive, bind_ok] at h
  obtain ⟨first, s₁, hfirst, n, s₂, hn, args, s₃, hargs, h⟩ := h
  obtain ⟨rfl, rfl⟩ := pure_ok.mp h
  obtain ⟨us, hus, hoptional⟩ := arguments?_sound hargs
  refine ⟨.mark .at :: .name n.value :: us, ?_, isDirective_iff.mpr ⟨us, rfl, hoptional⟩⟩
  rw [mark_sound hfirst, name_sound hn, hus]
  rfl

theorem directive_complete : Complete (directive schema) (·.value.unlocated) (IsDirective schema)
    (Avoids [.parenOpen]) := by
  rintro s ⟨⟨n, args⟩, span⟩ ts rest hs hd hrest
  obtain ⟨us, rfl, hargs⟩ := isDirective_iff.mp hd
  obtain ⟨first, s₁, hfirst, -, hs₁⟩ := mark_complete hs
  obtain ⟨n', s₂, hn, hname, hs₂⟩ := name_complete hs₁
  obtain ⟨args', s', hargs', hsame, hs'⟩ :=
    arguments?_complete List.mem_cons_self hs₂ (hname ▸ hargs) hrest
  refine ⟨⟨⟨n', args'⟩, ⟨first.span.start, ((args'.map (·.span)).getD n'.span).stop⟩⟩, s', ?_, ?_,
    hs'⟩
  · exact bind_ok.mpr ⟨first, s₁, hfirst, bind_ok.mpr ⟨n', s₂, hn,
      bind_ok.mpr ⟨args', s', hargs', pure_ok.mpr ⟨rfl, rfl⟩⟩⟩⟩
  · simp only [Directive.unlocated, hname, hsame]

theorem directivesUpTo_sound (fuel : Nat) :
    Sound (directivesUpTo schema fuel) (Items (IsDirective schema)) := by
  induction fuel with
  | zero =>
    intro s ds s' h
    obtain ⟨rfl, rfl⟩ := pure_ok.mp h
    exact ⟨[], rfl, items_nil_iff.mpr rfl⟩
  | succ fuel ih =>
    intro s ds s' h
    simp only [directivesUpTo, bind_ok, comes_ok] at h
    obtain ⟨_, _, ⟨-, rfl⟩, h⟩ := h
    split at h
    · obtain ⟨d, s₁, hd, h⟩ := bind_ok.mp h
      obtain ⟨more, s₂, hmore, h⟩ := bind_ok.mp h
      obtain ⟨rfl, rfl⟩ := pure_ok.mp h
      obtain ⟨us, hus, hL⟩ := directive_sound hd
      obtain ⟨vs, hvs, hitems⟩ := ih hmore
      refine ⟨us ++ vs, ?_, items_cons_iff.mpr ⟨us, vs, rfl, hL, hitems⟩⟩
      rw [hus, hvs, List.append_assoc]
    · obtain ⟨rfl, rfl⟩ := pure_ok.mp h
      exact ⟨[], rfl, items_nil_iff.mpr rfl⟩

theorem directivesUpTo_ne_nil {fuel : Nat} {ds : Directives} (hs : s.front.value = .mark .at)
    (h : directivesUpTo schema (fuel + 1) s = .ok ds s') : ds ≠ [] := by
  simp only [directivesUpTo, bind_ok, comes_ok, kind_eq_mark.mpr hs] at h
  obtain ⟨_, _, ⟨rfl, rfl⟩, h⟩ := h
  obtain ⟨d, s₁, -, h⟩ := bind_ok.mp h
  obtain ⟨more, s₂, -, h⟩ := bind_ok.mp h
  obtain ⟨rfl, rfl⟩ := pure_ok.mp h
  exact List.cons_ne_nil d more

theorem directives?_sound : Sound (directives? schema) (Optionally (IsDirectives schema)) := by
  refine ifComes_sound fun hfront hp => ?_
  obtain ⟨ts, hts, hitems⟩ := Sound.fueled directivesUpTo_sound hp
  exact ⟨ts, hts, isDirectives_iff.mpr ⟨directivesUpTo_ne_nil hfront hp, hitems⟩⟩

theorem directivesUpTo_complete (hat : .at ∈ marks) (hparen : .parenOpen ∈ marks) (fuel : Nat) :
    Complete (directivesUpTo schema fuel) Directives.unlocated
      (fun ds ts => Items (IsDirective schema) ds ts ∧ ts.length < fuel) (Avoids marks) := by
  induction fuel with
  | zero => rintro s ds ts rest - ⟨-, hlen⟩; exact absurd hlen (Nat.not_lt_zero _)
  | succ fuel ih =>
    rintro s ds ts rest hs ⟨hitems, hlen⟩ hrest
    cases ds with
    | nil =>
      obtain rfl := items_nil_iff.mp hitems
      obtain ⟨t, more, rfl, ht⟩ := hrest
      exact ⟨[], s, bind_ok.mpr ⟨false, s, comes_false hs (ht .at hat), pure_ok.mpr ⟨rfl, rfl⟩⟩,
        rfl, hs⟩
    | cons d ds =>
      obtain ⟨us, vs, rfl, hd, hmore⟩ := items_cons_iff.mp hitems
      have hnext : Avoids [.parenOpen] (vs ++ rest) := by
        cases ds with
        | nil =>
          obtain rfl := items_nil_iff.mp hmore
          exact hrest.mono (by simpa using hparen)
        | cons d' ds =>
          obtain ⟨ws, rfl⟩ := isDirectives_opens
            (isDirectives_iff.mpr ⟨List.cons_ne_nil d' ds, hmore⟩)
          exact ⟨_, _, rfl, by simp⟩
      rw [List.append_assoc] at hs
      obtain ⟨d', s₁, hd', hsame, hs₁⟩ := directive_complete hs hd hnext
      obtain ⟨ws, rfl, -⟩ := isDirective_iff.mp hd
      obtain ⟨ds', s₂, hds', hsames, hs₂⟩ := ih hs₁ ⟨hmore, by simp at hlen; omega⟩ hrest
      refine ⟨d' :: ds', s₂, ?_, ?_, hs₂⟩
      · exact bind_ok.mpr ⟨true, s, comes_true hs, bind_ok.mpr ⟨d', s₁, hd',
          bind_ok.mpr ⟨ds', s₂, hds', pure_ok.mpr ⟨rfl, rfl⟩⟩⟩⟩
      · exact congrArg₂ List.cons (congrArg Located.unlocated hsame) hsames

theorem directives?_complete (hat : .at ∈ marks) (hparen : .parenOpen ∈ marks) :
    Complete (directives? schema) (Option.map Directives.unlocated)
      (Optionally (IsDirectives schema)) (Avoids marks) := by
  refine ifComes_complete (Complete.fueled fun fuel => ?_) isDirectives_opens hat fun _ h => h
  exact (directivesUpTo_complete hat hparen fuel).mono fun _ _ h =>
    ⟨(isDirectives_iff.mp h.1).2, h.2⟩

end Parser

end GraphQL
