import GraphQL.Proofs.Document.Selections

/-! Operations and fragments: the parser reads exactly what renders as one, and a list of them up to
the end of the file. -/

namespace GraphQL

namespace Parser

variable {schema : Schema} {α : Type} {s s' : Tokens} {ts rest : List Token}
  {marks : List Punctuator}

theorem keyword_sound {text : Text} {t : Located Token} (h : keyword text s = .ok t s') :
    s.values = .name text :: s'.values := by
  simp only [keyword, comesName, bind_ok, peek_ok, pure_ok] at h
  obtain ⟨_, _, ⟨_, _, ⟨rfl, rfl⟩, rfl, rfl⟩, h⟩ := h
  split_ifs at h with hcomes
  · obtain ⟨hvalues, hfront⟩ := next_sound h
    rw [hvalues, ← hfront, eq_of_beq hcomes]
  · exact absurd h unexpected_not_ok

theorem keyword_complete {text : Text} (h : s.values = .name text :: rest) :
    ∃ t s', keyword text s = .ok t s' ∧ s'.values = rest := by
  obtain ⟨t, s', hnext, -, hs'⟩ := next_complete h
  refine ⟨t, s', bind_ok.mpr ⟨true, s, bind_ok.mpr ⟨_, s, peek_ok.mpr ⟨rfl, rfl⟩, ?_⟩, hnext⟩, hs'⟩
  exact pure_ok.mpr ⟨by rw [front_value h, beq_self_eq_true], rfl⟩

/-! ### Variables -/

/-- Tokens of the default of a variable. -/
def IsDefault (schema : Schema) (expected : Option TypeDef) :
    Located InputValue → List Token → Prop :=
  Derives schema (fun v => v.value.isWellFormed schema true expected)
    fun v => .mark .equals :: v.value.pieces schema expected

def IsVariableDef (schema : Schema) : VariableDef → List Token → Prop :=
  Derives schema (VariableDef.isWellFormed schema) (VariableDef.pieces schema)

/-- Tokens of declared variables between parentheses. -/
def IsVariables (schema : Schema) : Located (List VariableDef) → List Token → Prop :=
  Derives schema (fun defs => Operation.variablesWellFormed schema defs.value)
    fun defs => Operation.variablePieces schema defs.value

theorem isDefault_iff {expected : Option TypeDef} {v : Located InputValue} :
    IsDefault schema expected v ts ↔
      ∃ us, ts = .mark .equals :: us ∧ IsLiteral schema true expected v us := by
  unfold IsDefault IsLiteral
  simp only [Derives, writes_mark]
  exact ⟨fun ⟨hwf, us, h, hw⟩ => ⟨us, h, hwf, hw⟩, fun ⟨us, h, hwf, hw⟩ => ⟨hwf, us, h, hw⟩⟩

theorem isDefault_opens {expected : Option TypeDef} :
    Opens (IsDefault schema expected) .equals := by
  intro v ts h
  obtain ⟨us, rfl, -⟩ := isDefault_iff.mp h
  exact ⟨us, rfl⟩

theorem isVariableDef_iff {d : VariableDef} : IsVariableDef schema d ts ↔ ∃ us vs,
    ts = .mark .dollar :: .name d.name.value :: .mark .colon ::
      (d.type.value.tokens ++ (us ++ vs)) ∧ d.type.value.isUnsized = true ∧
    Optionally (IsDefault schema (schema.lookup? d.type.value)) d.default us ∧
    Optionally (IsDirectives schema) d.directives vs := by
  unfold IsVariableDef IsDefault IsDirectives
  simp only [optionally_derives_iff, Derives, VariableDef.isWellFormed, VariableDef.pieces,
    Bool.and_eq_true, writes_mark, writes_name, writes_append, writes_tokens]
  constructor
  · rintro ⟨⟨hunsized, hdefault, hds⟩, _, rfl, _, rfl, _, rfl, _, _, rfl, rfl, us, vs, rfl, hus,
      hvs⟩
    exact ⟨us, vs, rfl, hunsized, ⟨hdefault, hus⟩, hds, hvs⟩
  · rintro ⟨us, vs, rfl, hunsized, ⟨hdefault, hus⟩, hds, hvs⟩
    exact ⟨⟨hunsized, hdefault, hds⟩, _, rfl, _, rfl, _, rfl, _, _, rfl, rfl, us, vs, rfl, hus, hvs⟩

theorem isVariables_iff {defs : Located (List VariableDef)} : IsVariables schema defs ts ↔
    defs.value ≠ [] ∧ Delimited .parenOpen .parenClose (IsVariableDef schema) defs ts := by
  unfold IsVariables IsVariableDef
  rw [delimited_derives_iff]
  simp [Derives, Operation.variablesWellFormed, Operation.variablePieces, and_assoc]

theorem isVariables_opens : Opens (IsVariables schema) .parenOpen := by
  intro defs ts h
  obtain ⟨-, us, rfl, -⟩ := isVariables_iff.mp h
  exact ⟨us, rfl⟩

theorem isVariableDef_starts : Starts (IsVariableDef schema) (· = .mark .dollar) := by
  intro d ts h
  obtain ⟨us, vs, rfl, -⟩ := isVariableDef_iff.mp h
  exact ⟨_, _, rfl, rfl⟩

theorem default?_sound (t : TypeRef) : Sound (default? schema t)
    (Optionally (IsDefault schema (schema.lookup? t))) := by
  intro s o s' h
  simp only [default?, bind_ok] at h
  obtain ⟨skipped, s₁, hskip, h⟩ := h
  rcases skip?_sound hskip with ⟨equals, rfl, -, hs⟩ | ⟨rfl, rfl⟩
  · obtain ⟨v, hv, rfl⟩ := map_ok.mp h
    obtain ⟨us, hus, hliteral⟩ := literal_sound _ hv
    exact ⟨.mark .equals :: us, by rw [hs, hus]; rfl, isDefault_iff.mpr ⟨us, rfl, hliteral⟩⟩
  · obtain ⟨rfl, rfl⟩ := pure_ok.mp h
    exact ⟨[], rfl, rfl⟩

theorem default?_complete (t : TypeRef) (hequals : .equals ∈ marks) : Complete (default? schema t)
    (Option.map fun v => Located.unlocated v.value.unlocated)
    (Optionally (IsDefault schema (schema.lookup? t))) (Avoids marks) := by
  intro s o ts rest hs ho hrest
  simp only [default?, bind_ok]
  cases o with
  | none =>
    obtain rfl : ts = [] := ho
    obtain ⟨u, more, rfl, hu⟩ := hrest
    exact ⟨none, s, ⟨none, s, skip?_none hs (hu .equals hequals), pure_ok.mpr ⟨rfl, rfl⟩⟩, rfl, hs⟩
  | some v =>
    obtain ⟨us, rfl, hliteral⟩ := isDefault_iff.mp ho
    obtain ⟨equals, s₁, hskip, -, hs₁⟩ := skip?_some hs
    obtain ⟨v', s', hv, hsame, hs'⟩ := literal_complete _ hs₁ hliteral trivial
    exact ⟨some v', s', ⟨some equals, s₁, hskip, map_ok.mpr ⟨v', hv, rfl⟩⟩,
      congrArg (fun v => some (Located.unlocated v)) hsame, hs'⟩

theorem variableDef_sound : Sound (variableDef schema) (IsVariableDef schema) := by
  intro s d s' h
  simp only [variableDef, bind_ok] at h
  obtain ⟨dollar, s₁, hdollar, n, s₂, hn, colon, s₃, hcolon, t, s₄, ht, value, s₅, hvalue, ds, s₆,
    hds, h⟩ := h
  obtain ⟨rfl, rfl⟩ := pure_ok.mp h
  obtain ⟨_, htokens, hunsized, rfl⟩ := typeRef_sound ht
  obtain ⟨us, hus, hdefault⟩ := default?_sound t.value hvalue
  obtain ⟨vs, hvs, hdirectives⟩ := directives?_sound hds
  refine ⟨.mark .dollar :: .name n.value :: .mark .colon :: (t.value.tokens ++ (us ++ vs)), ?_,
    isVariableDef_iff.mpr ⟨us, vs, rfl, hunsized, hdefault, hdirectives⟩⟩
  rw [mark_sound hdollar, name_sound hn, mark_sound hcolon, htokens, hus, hvs]
  simp only [List.cons_append, List.append_assoc]

theorem variableDef_complete : Complete (variableDef schema) VariableDef.unlocated
    (IsVariableDef schema) (Avoids [.exclamationMark, .equals, .at, .parenOpen]) := by
  rintro s ⟨name, type, value, directives⟩ ts rest hs hd hrest
  obtain ⟨us, vs, rfl, hunsized, hdefault, hdirectives⟩ := isVariableDef_iff.mp hd
  simp only [List.cons_append, List.append_assoc] at hs
  have hvs : Avoids [.exclamationMark, .equals] (vs ++ rest) :=
    hdirectives.avoids isDirectives_opens (by decide) (hrest.mono (by decide))
  have hus : Avoids [.exclamationMark] (us ++ (vs ++ rest)) :=
    hdefault.avoids isDefault_opens (by decide) (hvs.mono (by decide))
  obtain ⟨dollar, s₁, hdollar, -, hs₁⟩ := mark_complete hs
  obtain ⟨n, s₂, hn, hname, hs₂⟩ := name_complete hs₁
  obtain ⟨colon, s₃, hcolon, -, hs₃⟩ := mark_complete hs₂
  obtain ⟨t, s₄, ht, htype, hs₄⟩ := typeRef_complete hs₃ ⟨hunsized, rfl⟩ (hus.spares (by decide))
  obtain ⟨v, s₅, hv, hsame₁, hs₅⟩ := default?_complete type.value (by decide) hs₄ hdefault hvs
  obtain ⟨ds, s', hds, hsame₂, hs'⟩ :=
    directives?_complete (by decide) (by decide) hs₅ hdirectives hrest
  have htype : t.value = type.value := htype
  refine ⟨⟨⟨n.value, ⟨dollar.span.start, n.span.stop⟩⟩, t, v, ds⟩, s', ?_, ?_, hs'⟩
  · refine bind_ok.mpr ⟨dollar, s₁, hdollar, bind_ok.mpr ⟨n, s₂, hn, bind_ok.mpr ⟨colon, s₃, hcolon,
      bind_ok.mpr ⟨t, s₄, ht, bind_ok.mpr ⟨v, s₅, ?_, bind_ok.mpr ⟨ds, s', hds,
        pure_ok.mpr ⟨rfl, rfl⟩⟩⟩⟩⟩⟩⟩
    rw [htype]
    exact hv
  · simp only [VariableDef.unlocated, hname, htype, hsame₁, hsame₂]

theorem variableDefs?_sound :
    Sound (variableDefs? schema) (Optionally (IsVariables schema)) := by
  refine ifComes_sound fun _ hp => ?_
  obtain ⟨ts, hts, h⟩ := Sound.fueled (delimitedSome_sound variableDef_sound) hp
  exact ⟨ts, hts, isVariables_iff.mpr h⟩

theorem variableDefs?_complete (hparen : .parenOpen ∈ marks) : Complete (variableDefs? schema)
    (Option.map fun defs => Located.unlocated (defs.value.map VariableDef.unlocated))
    (Optionally (IsVariables schema)) (Avoids marks) := by
  have hsome : Complete (fueled (delimitedSome (.mark .parenOpen) (.mark .parenClose)
      (variableDef schema))) _ _ _ :=
    Complete.fueled (delimitedSome_complete variableDef_complete isVariableDef_starts nofun
      fun t more ht => ⟨t, more, rfl, fun p hp => ?_⟩)
  · refine ifComes_complete ((hsome.mono fun _ _ h => isVariables_iff.mp h).keep
      fun defs defs' hsame => ?_) isVariables_opens hparen fun _ _ => trivial
    exact congrArg Located.unlocated hsame
  · rcases ht with rfl | rfl <;> revert p <;> decide

/-! ### Operations -/

/-- A name that may be left out. -/
def optionalName : Option (Located Text) → List Token
  | none => []
  | some n => [.name n.value]

/-- Tokens of an operation in any of its forms. -/
def IsOperation (schema : Schema) (op : Operation) (ts : List Token) : Prop :=
  op.isWellFormed schema = true ∧ ∃ form ∈ op.forms schema, Writes schema form ts

/-- Tokens of an operation that begins with its keyword. -/
def IsKeyworded (schema : Schema) : Operation → List Token → Prop :=
  Derives schema (Operation.isWellFormed schema) (Operation.pieces schema)

theorem isKeyworded_iff {op : Operation} : IsKeyworded schema op ts ↔ ∃ us vs ws,
    ts = .name op.type.toText :: (optionalName op.name ++ (us ++ (vs ++ ws))) ∧
    Optionally (IsVariables schema) op.declaredVars us ∧
    Optionally (IsDirectives schema) op.directives vs ∧
    IsSelectionSet schema (Operation.rootFields schema op.type) op.selections ws := by
  have hname : piecesOf (fun n => [.name n.value]) op.name = (optionalName op.name).map .token := by
    cases op.name <;> rfl
  unfold IsKeyworded IsVariables IsDirectives IsSelectionSet
  simp only [optionally_derives_iff, Derives, Operation.isWellFormed, Operation.pieces, hname,
    Bool.and_eq_true, writes_name, writes_append, writes_tokens]
  constructor
  · rintro ⟨⟨hvars, hds, hset⟩, _, rfl, _, _, rfl, rfl, us, _, rfl, hus, vs, ws, rfl, hvs, hws⟩
    exact ⟨us, vs, ws, rfl, ⟨hvars, hus⟩, ⟨hds, hvs⟩, hset, hws⟩
  · rintro ⟨us, vs, ws, rfl, ⟨hvars, hus⟩, ⟨hds, hvs⟩, hset, hws⟩
    exact ⟨⟨hvars, hds, hset⟩, _, rfl, _, _, rfl, rfl, us, _, rfl, hus, vs, ws, rfl, hvs, hws⟩

theorem isOperation_of_keyworded {op : Operation} (h : IsKeyworded schema op ts) :
    IsOperation schema op ts :=
  ⟨h.1, _, List.mem_cons_self, h.2⟩

theorem isOperation_bare {selections : SelectionSet} {span : Span} (h : IsSelectionSet schema
    (Operation.rootFields schema .query) selections ts) :
    IsOperation schema ⟨.query, none, none, none, selections, span⟩ ts :=
  ⟨h.1, _, List.mem_cons_of_mem _ List.mem_cons_self, h.2⟩

/-- An operation begins with its keyword, or is a query that is its selections alone. -/
theorem isOperation_cases {op : Operation} (h : IsOperation schema op ts) :
    IsKeyworded schema op ts ∨ ∃ selections span,
      op = ⟨.query, none, none, none, selections, span⟩ ∧
        IsSelectionSet schema (Operation.rootFields schema .query) selections ts := by
  obtain ⟨hwf, form, hform, hwrites⟩ := h
  rcases List.mem_cons.mp hform with rfl | hform
  · exact .inl ⟨hwf, hwrites⟩
  · split_ifs at hform with hbare
    · obtain rfl := List.mem_singleton.mp hform
      obtain ⟨type, name, vars, ds, selections, span⟩ := op
      simp only [Operation.isBare, Bool.and_eq_true, beq_iff_eq, Option.isNone_iff_eq_none] at hbare
      obtain ⟨⟨⟨rfl, rfl⟩, rfl⟩, rfl⟩ := hbare
      exact .inr ⟨selections, span, rfl, hwf, hwrites⟩
    · cases hform

theorem name?_sound : Sound name? fun o ts => ts = optionalName o := by
  intro s o s' h
  simp only [name?, bind_ok, peek_ok] at h
  obtain ⟨_, _, ⟨rfl, rfl⟩, h⟩ := h
  split_ifs at h
  · obtain ⟨n, hn, rfl⟩ := map_ok.mp h
    exact ⟨_, name_sound hn, rfl⟩
  · obtain ⟨rfl, rfl⟩ := pure_ok.mp h
    exact ⟨[], rfl, rfl⟩

/-- A name is taken where one comes, so what follows one that is left out begins with a mark. -/
theorem name?_complete : Complete name? (Option.map fun n => Located.unlocated n.value)
    (fun o ts => ts = optionalName o) (fun rest => ∃ m more, rest = .mark m :: more) := by
  rintro s o ts rest hs rfl hrest
  simp only [name?, bind_ok, peek_ok]
  cases o with
  | none =>
    obtain ⟨m, more, rfl⟩ := hrest
    refine ⟨none, s, ⟨_, _, ⟨rfl, rfl⟩, ?_⟩, rfl, hs⟩
    rw [front_value hs]
    exact pure_ok.mpr ⟨rfl, rfl⟩
  | some n =>
    obtain ⟨n', s', hn, hname, hs'⟩ := name_complete hs
    refine ⟨some n', s', ⟨_, _, ⟨rfl, rfl⟩, ?_⟩, congrArg (some ∘ Located.unlocated) hname, hs'⟩
    rw [front_value hs]
    exact map_ok.mpr ⟨n', hn, rfl⟩

theorem shorthand_sound : Sound (shorthand schema) (IsOperation schema) := by
  intro s op s' h
  simp only [shorthand, bind_ok] at h
  obtain ⟨found, s₁, hfound, body, s₂, hbody, h⟩ := h
  obtain ⟨rfl, rfl⟩ := findFields_ok hfound
  obtain ⟨rfl, rfl⟩ := pure_ok.mp h
  obtain ⟨ts, hts, hset⟩ := selections_sound _ hbody
  exact ⟨ts, hts, isOperation_bare hset⟩

theorem shorthand_complete (hunions : schema.UnionsEnd) {selections : SelectionSet} (span : Span)
    (hs : s.values = ts ++ rest)
    (h : IsSelectionSet schema (Operation.rootFields schema .query) selections ts) :
    ∃ op s', shorthand schema s = .ok op s' ∧ op.unlocated = Operation.unlocated
      ⟨.query, none, none, none, selections, span⟩ ∧ s'.values = rest := by
  obtain ⟨body, s', hbody, hsame, hs'⟩ := selections_complete hunions
    (Operation.rootFields schema .query) (a := ⟨selections, span⟩) hs h trivial
  refine ⟨⟨.query, none, none, none, body.value, body.span⟩, s', ?_, ?_, hs'⟩
  · exact bind_ok.mpr ⟨_, s, findFields_of_unionsEnd hunions _ s,
      bind_ok.mpr ⟨body, s', hbody, pure_ok.mpr ⟨rfl, rfl⟩⟩⟩
  · simp only [Operation.unlocated, hsame, Option.map_none]

theorem operation_sound (type : OperationType) :
    Sound (operation schema type) (IsOperation schema) := by
  intro s op s' h
  simp only [operation, bind_ok] at h
  obtain ⟨first, s₁, hfirst, n, s₂, hn, vars, s₃, hvars, ds, s₄, hds, found, s₅, hfound, body, s₆,
    hbody, h⟩ := h
  obtain ⟨rfl, rfl⟩ := findFields_ok hfound
  obtain ⟨rfl, rfl⟩ := pure_ok.mp h
  obtain ⟨_, hs₁, rfl⟩ := name?_sound hn
  obtain ⟨us, hus, hL⟩ := variableDefs?_sound hvars
  obtain ⟨vs, hvs, hM⟩ := directives?_sound hds
  obtain ⟨ws, hws, hN⟩ := selections_sound _ hbody
  refine ⟨.name type.toText :: (optionalName n ++ (us ++ (vs ++ ws))), ?_,
    isOperation_of_keyworded (isKeyworded_iff.mpr ⟨us, vs, ws, rfl, hL, hM, hN⟩)⟩
  rw [keyword_sound hfirst, hs₁, hus, hvs, hws]
  simp only [List.cons_append, List.append_assoc]

theorem operation_complete (hunions : schema.UnionsEnd) {op : Operation}
    (hs : s.values = ts ++ rest) (h : IsKeyworded schema op ts) : ∃ op' s', operation schema op.type s = .ok op' s' ∧
      op'.unlocated = op.unlocated ∧ s'.values = rest := by
  obtain ⟨us, vs, ws, rfl, hvars, hds, hset⟩ := isKeyworded_iff.mp h
  simp only [List.cons_append, List.append_assoc] at hs
  -- The brace is always there, so that a name and all that may be left out end before some mark.
  have hws : ∃ more, ws ++ rest = .mark .curlyOpen :: more := by
    obtain ⟨more, rfl⟩ := isSelectionSet_opens hset
    exact ⟨_, rfl⟩
  have hvs : Avoids [.parenOpen] (vs ++ (ws ++ rest)) := by
    obtain ⟨more, hmore⟩ := hws
    exact hds.avoids isDirectives_opens (by decide) ⟨_, _, hmore, by decide⟩
  have hus : ∃ m more, us ++ (vs ++ (ws ++ rest)) = .mark m :: more := by
    obtain ⟨more, hmore⟩ := hws
    rw [hmore]
    exact hvars.mark isVariables_opens (hds.mark isDirectives_opens ⟨_, _, rfl⟩)
  obtain ⟨first, s₁, hfirst, hs₁⟩ := keyword_complete hs
  obtain ⟨n, s₂, hn, hname, hs₂⟩ := name?_complete hs₁ rfl hus
  obtain ⟨vars, s₃, hvars', hsame₁, hs₃⟩ :=
    variableDefs?_complete List.mem_cons_self hs₂ hvars hvs
  have hbrace : Avoids [.at, .parenOpen] (ws ++ rest) := by
    obtain ⟨more, hmore⟩ := hws
    exact ⟨_, _, hmore, by decide⟩
  obtain ⟨ds, s₄, hds', hsame₂, hs₄⟩ :=
    directives?_complete (by decide) (by decide) hs₃ hds hbrace
  obtain ⟨body, s', hbody, hsame₃, hs'⟩ := selections_complete hunions
    (Operation.rootFields schema op.type) (a := ⟨op.selections, op.span⟩) hs₄ hset trivial
  refine ⟨⟨op.type, n, vars, ds, body.value, ⟨first.span.start, body.span.stop⟩⟩, s', ?_, ?_, hs'⟩
  · exact bind_ok.mpr ⟨first, s₁, hfirst, bind_ok.mpr ⟨n, s₂, hn, bind_ok.mpr ⟨vars, s₃, hvars',
      bind_ok.mpr ⟨ds, s₄, hds', bind_ok.mpr ⟨_, s₄, findFields_of_unionsEnd hunions _ s₄,
        bind_ok.mpr ⟨body, s', hbody, pure_ok.mpr ⟨rfl, rfl⟩⟩⟩⟩⟩⟩⟩
  · simp only [Operation.unlocated, hname, hsame₁, hsame₂, hsame₃]

/-! ### Fragments -/

def IsFragment (schema : Schema) : Fragment → List Token → Prop :=
  Derives schema (Fragment.isWellFormed schema) (Fragment.pieces schema)

theorem isFragment_iff {f : Fragment} : IsFragment schema f ts ↔ ∃ us vs,
    ts = .name (lit "fragment") :: .name f.name.value :: .name (lit "on") ::
      .name f.condition.value :: (us ++ vs) ∧ f.name.value ≠ lit "on" ∧
    Optionally (IsDirectives schema) f.directives us ∧
    IsSelectionSet schema (fieldsOf schema (schema.type? f.condition.value)) f.selections vs := by
  unfold IsFragment IsDirectives IsSelectionSet
  simp only [optionally_derives_iff, Derives, Fragment.isWellFormed, Fragment.pieces,
    Bool.and_eq_true, bne_iff_ne, writes_name, writes_append]
  constructor
  · rintro ⟨⟨hon, hds, hset⟩, _, rfl, _, rfl, _, rfl, _, rfl, us, vs, rfl, hus, hvs⟩
    exact ⟨us, vs, rfl, hon, ⟨hds, hus⟩, hset, hvs⟩
  · rintro ⟨us, vs, rfl, hon, ⟨hds, hus⟩, hset, hvs⟩
    exact ⟨⟨hon, hds, hset⟩, _, rfl, _, rfl, _, rfl, _, rfl, us, vs, rfl, hus, hvs⟩

theorem fragmentDef_sound : Sound (fragmentDef schema) (IsFragment schema) := by
  intro s f s' h
  simp only [fragmentDef, bind_ok] at h
  obtain ⟨first, s₁, hfirst, n, s₂, hn, h⟩ := h
  split_ifs at h with hon
  · obtain ⟨_, _, hfail, -⟩ := bind_ok.mp h
    exact absurd hfail failAt_not_ok
  · simp only [bind_ok] at h
    obtain ⟨word, s₃, hword, c, s₄, hc, ds, s₅, hds, found, s₆, hfound, body, s₇, hbody, h⟩ := h
    obtain ⟨rfl, rfl⟩ := findFields_ok hfound
    obtain ⟨rfl, rfl⟩ := pure_ok.mp h
    obtain ⟨us, hus, hL⟩ := directives?_sound hds
    obtain ⟨vs, hvs, hM⟩ := selections_sound _ hbody
    refine ⟨_, ?_, isFragment_iff.mpr ⟨us, vs, rfl, ?_, hL, hM⟩⟩
    · rw [keyword_sound hfirst, name_sound hn, keyword_sound hword, name_sound hc, hus, hvs]
      simp only [List.cons_append, List.append_assoc]
    · exact fun heq => hon (by rw [heq, beq_self_eq_true])

theorem fragmentDef_complete (hunions : schema.UnionsEnd) :
    Complete (fragmentDef schema) Fragment.unlocated (IsFragment schema) anything := by
  rintro s f ts rest hs h -
  obtain ⟨us, vs, rfl, hon, hds, hset⟩ := isFragment_iff.mp h
  simp only [List.cons_append, List.append_assoc] at hs
  have hbrace : Avoids [.at, .parenOpen] (vs ++ rest) := by
    obtain ⟨more, rfl⟩ := isSelectionSet_opens hset
    exact ⟨_, _, rfl, by decide⟩
  obtain ⟨first, s₁, hfirst, hs₁⟩ := keyword_complete hs
  obtain ⟨n, s₂, hn, hname, hs₂⟩ := name_complete hs₁
  obtain ⟨word, s₃, hword, hs₃⟩ := keyword_complete hs₂
  obtain ⟨c, s₄, hc, hcondition, hs₄⟩ := name_complete hs₃
  obtain ⟨ds, s₅, hds', hsame₁, hs₅⟩ :=
    directives?_complete (by decide) (by decide) hs₄ hds hbrace
  obtain ⟨body, s', hbody, hsame₂, hs'⟩ := selections_complete hunions
    (fieldsOf schema (schema.type? f.condition.value)) (a := ⟨f.selections, f.span⟩) hs₅ hset
    trivial
  refine ⟨⟨n, c, ds, body.value, ⟨first.span.start, body.span.stop⟩⟩, s', ?_, ?_, hs'⟩
  · have hpass : (n.value == lit "on") = false := by rw [hname, beq_eq_false_iff_ne]; exact hon
    refine bind_ok.mpr ⟨first, s₁, hfirst, bind_ok.mpr ⟨n, s₂, hn, ?_⟩⟩
    rw [hpass]
    refine bind_ok.mpr ⟨word, s₃, hword, bind_ok.mpr ⟨c, s₄, hc, bind_ok.mpr ⟨ds, s₅, hds',
      bind_ok.mpr ⟨_, s₅, findFields_of_unionsEnd hunions _ s₅,
        bind_ok.mpr ⟨body, s', ?_, pure_ok.mpr ⟨rfl, rfl⟩⟩⟩⟩⟩⟩
    rw [hcondition]
    exact hbody
  · simp only [Fragment.unlocated, hname, hcondition, hsame₁, hsame₂]

end Parser

end GraphQL
