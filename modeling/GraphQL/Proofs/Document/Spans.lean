import GraphQL.Proofs.Document.Bracketed
import GraphQL.Proofs.Document.Exact

/-! The spans of whole documents. Each is put together by the parser from whatever part of its node
is there and reaches furthest; it comes out as the hull of the tokens that the node is read from, and
so spans nest like the nodes that store them. -/

namespace GraphQL

open Layout GraphQL.Span

namespace Parser

variable {schema : Schema} {s s' : Tokens} {ts : List (Located Token)} {fields : Fields}
  {selection : Fields → Parser Selection}

/-! ### Selections -/

theorem setLayouts_eq (selections : List Selection) :
    Selection.setLayouts schema fields selections =
      selections.flatMap fun a => [a.layout schema fields] := by
  induction selections with
  | nil => rfl
  | cons a selections ih => rw [List.flatMap_cons, ← ih]; rfl

theorem layout_field (head : FieldHead) (below : Option SelectionSet) :
    (Selection.field head below).layout schema fields = .part head.span
      (head.layouts schema fields ++ optional (SelectionSet.layouts schema
        (FieldHead.fieldsBelow schema fields head.name.value)) below) := by
  cases below with
  | none =>
    show _ = Layout.part head.span (head.layouts schema fields ++ [])
    rw [List.append_nil]
    rfl
  | some below => rfl

theorem selectionSet_lays
    (h : ∀ fields, Lays schema (selection fields) fun a => [a.layout schema fields])
    (fields : Fields) : Lays schema (selectionSet selection fields) fun r =>
      [.part r.span (r.value.layouts schema fields)] := by
  intro s r s' hp
  obtain ⟨ts, hts, hstand⟩ := Lays.fueled (delimitedSome_lays (h fields)) hp
  refine ⟨ts, hts, ?_⟩
  show Stand schema [.part r.span (between .curlyOpen .curlyClose
    (Selection.setLayouts schema fields r.value))] ts
  rw [setLayouts_eq]
  exact hstand

/-- A fragment in place ends with its selections. -/
theorem inlineFragment_lays
    (h : ∀ fields, Lays schema (selection fields) fun a => [a.layout schema fields])
    (fields : Fields) (condition : Option (Located Text)) {find : Parser Fields}
    (hfind : ∀ ⦃s found s'⦄, find s = .ok found s' →
      InlineHead.fieldsInside schema fields condition = found ∧ s = s')
    {dots : Located Token} {a : Selection} {us : List (Located Token)}
    (hus : Stand schema (optional (fun c => [.name (lit "on"), word c]) condition) us)
    (hp : inlineFragment schema selection dots.span.start condition find s = .ok a s') :
    ∃ ts, s.pending = ts ++ s'.pending ∧
      Stand schema [a.layout schema fields] (⟨.mark .ellipsis, dots.span⟩ :: (us ++ ts)) := by
  simp only [inlineFragment, bind_ok] at hp
  obtain ⟨ds, s₁, hds, found, s₂, hfound, body, s₃, hbody, hp⟩ := hp
  obtain ⟨rfl, rfl⟩ := hfind hfound
  obtain ⟨rfl, rfl⟩ := pure_ok.mp hp
  obtain ⟨vs, hvs, hdirectives⟩ := directives?_lays hds
  obtain ⟨ws, hws, hset⟩ := selectionSet_lays h _ hbody
  obtain ⟨hinside, hspan⟩ := stand_part_iff.mp hset
  refine ⟨vs ++ ws, ?_, ?_⟩
  · rw [hvs, hws, List.append_assoc]
  · apply stand_part_iff.mpr
    constructor
    · exact (hus.append (hdirectives.append hinside)).mark .ellipsis dots.span
    · rw [hull?_cons, stopAfter_append, stopAfter_append, stopAfter_of_hull? hspan]

theorem fragmentSelection_lays
    (h : ∀ fields, Lays schema (selection fields) fun a => [a.layout schema fields])
    (fields : Fields) :
    Lays schema (fragmentSelection schema selection fields) fun a => [a.layout schema fields] := by
  intro s a s' hp
  simp only [fragmentSelection, bind_ok, peek_ok] at hp
  obtain ⟨dots, s₁, hdots, _, _, ⟨rfl, rfl⟩, hp⟩ := hp
  have hs := mark_takes hdots
  cases hfront : s₁.front.value with
  | name text =>
    simp only [hfront] at hp
    split_ifs at hp with hon
    · obtain ⟨on, s₂, hword, hp⟩ := bind_ok.mp hp
      obtain ⟨condition, s₃, hcondition, hp⟩ := bind_ok.mp hp
      have hvalue : on.value = .name (lit "on") := by
        rw [← (next_sound hword).2, hfront, eq_of_beq hon]
      have hstand : Stand schema [.name (lit "on"), word condition]
          [on, ⟨.name condition.value, condition.span⟩] :=
        .piece (fits_token.mpr hvalue) (Stand.nil.word condition)
      obtain ⟨ts, hts, hselection⟩ :=
        inlineFragment_lays h fields (some condition) (fun _ _ _ => findFields_ok) hstand hp
      refine ⟨_, ?_, hselection⟩
      rw [hs, next_takes hword, name_takes hcondition, hts]
      rfl
    · obtain ⟨n, s₂, hn, hp⟩ := bind_ok.mp hp
      obtain ⟨ds, s₃, hds, hp⟩ := bind_ok.mp hp
      obtain ⟨rfl, rfl⟩ := pure_ok.mp hp
      obtain ⟨us, hus, hdirectives⟩ := directives?_lays hds
      refine ⟨⟨.mark .ellipsis, dots.span⟩ :: ⟨.name n.value, n.span⟩ :: us, ?_, ?_⟩
      · rw [hs, name_takes hn, hus]
        rfl
      · apply stand_part_iff.mpr
        constructor
        · exact (hdirectives.word n).mark .ellipsis dots.span
        · rw [hull?_cons, stopAfter_cons, stopAfter_directives hdirectives]
  | mark m =>
    cases m
    all_goals simp only [hfront] at hp
    case curlyOpen =>
      obtain ⟨ts, hts, hselection⟩ :=
        inlineFragment_lays h fields none (fun _ _ _ => pure_ok.mp) .nil hp
      exact ⟨_, by rw [hs, hts]; rfl, hselection⟩
    case «at» =>
      obtain ⟨ts, hts, hselection⟩ :=
        inlineFragment_lays h fields none (fun _ _ _ => pure_ok.mp) .nil hp
      exact ⟨_, by rw [hs, hts]; rfl, hselection⟩
    all_goals exact absurd hp unexpected_not_ok
  | scalar l =>
    simp only [hfront] at hp
    exact absurd hp unexpected_not_ok
  | endOfFile =>
    simp only [hfront] at hp
    exact absurd hp unexpected_not_ok

/-- A field starts with its alias, or else with its name. -/
theorem fieldName_lays (schema : Schema) {r : Option (Located Text) × Located Text}
    (h : fieldName s = .ok r s') :
    ∃ ts, s.pending = ts ++ s'.pending ∧ Stand schema (nameLayouts r) ts ∧
      hull? (ts.map (·.span)) = some ⟨(r.1.getD r.2).span.start, r.2.span.stop⟩ := by
  simp only [fieldName, bind_ok] at h
  obtain ⟨first, s₁, hfirst, o, s₂, hskip, h⟩ := h
  rcases skip?_takes hskip with ⟨colon, rfl, hcolon⟩ | ⟨rfl, rfl⟩
  · obtain ⟨n, s₃, hn, h⟩ := bind_ok.mp h
    obtain ⟨rfl, rfl⟩ := pure_ok.mp h
    refine ⟨[⟨.name first.value, first.span⟩, ⟨.mark .colon, colon.span⟩,
      ⟨.name n.value, n.span⟩], ?_, ?_, rfl⟩
    · rw [name_takes hfirst, hcolon, name_takes hn]
      rfl
    · exact ((Stand.nil.word n).mark .colon colon.span).word first
  · obtain ⟨rfl, rfl⟩ := pure_ok.mp h
    exact ⟨[⟨.name first.value, first.span⟩], name_takes hfirst, Stand.nil.word first, rfl⟩

theorem fieldSelection_lays
    (h : ∀ fields, Lays schema (selection fields) fun a => [a.layout schema fields])
    (fields : Fields) :
    Lays schema (fieldSelection schema selection fields) fun a => [a.layout schema fields] := by
  intro s a s' hp
  simp only [fieldSelection, bind_ok] at hp
  obtain ⟨⟨aliasName, n⟩, s₁, hname, args, s₂, hargs, ds, s₃, hds, found, s₄, hfound, body, s₅,
    hbody, hp⟩ := hp
  obtain ⟨rfl, rfl⟩ := findFields_ok hfound
  obtain ⟨rfl, rfl⟩ := pure_ok.mp hp
  obtain ⟨ns, hns, hnames, hspan⟩ := fieldName_lays schema hname
  obtain ⟨us, hus, harguments⟩ := arguments?_lays _ hargs
  obtain ⟨vs, hvs, hdirectives⟩ := directives?_lays hds
  obtain ⟨ws, hws, hset⟩ := ifComes_lays (selectionSet_lays h _) hbody
  refine ⟨ns ++ (us ++ (vs ++ ws)), ?_, ?_⟩
  · rw [hns, hus, hvs, hws]
    simp only [List.append_assoc]
  · have hstop : stopAfter (stopAfter (stopAfter n.span.stop us) vs) ws =
        (body.map (·.span.stop)).getD (endOf ds ((args.map (·.span)).getD n.span)) := by
      rw [stopAfter_arguments harguments, stopAfter_directives hdirectives]
      cases body with
      | none =>
        cases hset
        rfl
      | some body => exact stopAfter_of_hull? (stand_part_iff.mp hset).2 _
    have hbelow : Stand schema (optional (SelectionSet.layouts schema
        (FieldHead.fieldsBelow schema fields n.value)) (body.map (·.value))) ws := by
      cases body with
      | none => exact hset
      | some body => exact (stand_part_iff.mp hset).1
    show Stand schema [Selection.layout schema fields (.field _ _)] _
    rw [layout_field]
    apply stand_part_iff.mpr
    constructor
    · rw [FieldHead.layouts, List.append_assoc, List.append_assoc]
      exact hnames.append (harguments.append (hdirectives.append hbelow))
    · rw [hull?_append hspan, stopAfter_append, stopAfter_append, hstop]

/-- Every selection is laid out, however deep the selections below it go. -/
theorem selectionUpTo_lays (fuel : Nat) : ∀ fields,
    Lays schema (selectionUpTo schema fuel fields) fun a => [a.layout schema fields] := by
  induction fuel with
  | zero => exact fun _ _ _ _ h => absurd h unexpected_not_ok
  | succ fuel ih =>
    intro fields s a s' h
    simp only [selectionUpTo, bind_ok, comes_ok] at h
    obtain ⟨_, _, ⟨-, rfl⟩, h⟩ := h
    split_ifs at h
    · exact fragmentSelection_lays ih fields h
    · exact fieldSelection_lays ih fields h

theorem selections_lays (fields : Fields) : Lays schema (selections schema fields) fun r =>
    [.part r.span (r.value.layouts schema fields)] :=
  Lays.fueled fun fuel => selectionSet_lays (selectionUpTo_lays fuel) fields

/-! ### Definitions -/

theorem keyword_takes {text : Text} {t : Located Token} (h : keyword text s = .ok t s') :
    s.pending = ⟨.name text, t.span⟩ :: s'.pending := by
  have hvalues := keyword_sound h
  simp only [keyword, comesName, bind_ok, peek_ok, pure_ok] at h
  obtain ⟨_, _, ⟨_, _, ⟨rfl, rfl⟩, rfl, rfl⟩, h⟩ := h
  split_ifs at h
  · have htakes := next_takes h
    rw [Tokens.values, htakes, List.map_cons] at hvalues
    have ht : t.value = .name text := (List.cons.inj hvalues).1
    rw [htakes, ← ht]
  · exact absurd h unexpected_not_ok

theorem default?_lays (t : TypeRef) : Lays schema (default? schema t) (optional fun v =>
    [.mark .equals, InputValue.layout schema (schema.lookup? t) v]) := by
  intro s o s' h
  simp only [default?, bind_ok] at h
  obtain ⟨skipped, s₁, hskip, h⟩ := h
  rcases skip?_takes hskip with ⟨equals, rfl, hs⟩ | ⟨rfl, rfl⟩
  · obtain ⟨v, hv, rfl⟩ := map_ok.mp h
    obtain ⟨us, hus, hstand⟩ := literal_lays true (schema.lookup? t) hv
    refine ⟨⟨.mark .equals, equals.span⟩ :: us, ?_, hstand.mark .equals equals.span⟩
    rw [hs, hus]
    rfl
  · obtain ⟨rfl, rfl⟩ := pure_ok.mp h
    exact ⟨[], rfl, .nil⟩

theorem variableDef_lays : Lays schema (variableDef schema) (VariableDef.layouts schema) := by
  intro s d s' h
  simp only [variableDef, bind_ok] at h
  obtain ⟨dollar, s₁, hdollar, n, s₂, hn, colon, s₃, hcolon, t, s₄, ht, value, s₅, hvalue, ds, s₆,
    hds, h⟩ := h
  obtain ⟨rfl, rfl⟩ := pure_ok.mp h
  obtain ⟨ts, hts, htype⟩ := typeRef_lays ht
  obtain ⟨us, hus, hdefault⟩ := default?_lays t.value hvalue
  obtain ⟨vs, hvs, hdirectives⟩ := directives?_lays hds
  have hname : Stand schema [.mark .dollar, .name n.value]
      [⟨.mark .dollar, dollar.span⟩, ⟨.name n.value, n.span⟩] :=
    (Stand.nil.name n.value n.span).mark .dollar dollar.span
  have hrest := htype.append (hdefault.append hdirectives)
  refine ⟨[⟨.mark .dollar, dollar.span⟩, ⟨.name n.value, n.span⟩] ++
    ⟨.mark .colon, colon.span⟩ :: (ts ++ (us ++ vs)), ?_, ?_⟩
  · rw [mark_takes hdollar, name_takes hn, mark_takes hcolon, hts, hus, hvs]
    simp only [List.cons_append, List.append_assoc, List.nil_append]
  · exact .part hname rfl (hrest.mark .colon colon.span)

theorem variableDefs?_lays : Lays schema (variableDefs? schema)
    (optional fun defs => [Operation.variablesLayout schema defs]) :=
  ifComes_lays (Lays.fueled (delimitedSome_lays variableDef_lays))

theorem name?_lays : Lays schema name? (optional fun n => [word n]) := by
  intro s o s' h
  simp only [name?, bind_ok, peek_ok] at h
  obtain ⟨_, _, ⟨rfl, rfl⟩, h⟩ := h
  split_ifs at h
  · obtain ⟨n, hn, rfl⟩ := map_ok.mp h
    exact ⟨[⟨.name n.value, n.span⟩], name_takes hn, Stand.nil.word n⟩
  · obtain ⟨rfl, rfl⟩ := pure_ok.mp h
    exact ⟨[], rfl, .nil⟩

theorem shorthand_lays {op : Operation} (h : shorthand schema s = .ok op s') :
    op.isBare = true ∧ ∃ ts, s.pending = ts ++ s'.pending ∧
      Stand schema [op.bareLayout schema] ts := by
  simp only [shorthand, bind_ok] at h
  obtain ⟨found, s₁, hfound, body, s₂, hbody, h⟩ := h
  obtain ⟨rfl, rfl⟩ := findFields_ok hfound
  obtain ⟨rfl, rfl⟩ := pure_ok.mp h
  exact ⟨rfl, selections_lays _ hbody⟩

/-- An operation with its keyword ends with its selections. -/
theorem operation_lays (type : OperationType) :
    Lays schema (operation schema type) fun op => [op.layout schema] := by
  intro s op s' h
  simp only [operation, bind_ok] at h
  obtain ⟨first, s₁, hfirst, n, s₂, hn, vars, s₃, hvars, ds, s₄, hds, found, s₅, hfound, body, s₆,
    hbody, h⟩ := h
  obtain ⟨rfl, rfl⟩ := findFields_ok hfound
  obtain ⟨rfl, rfl⟩ := pure_ok.mp h
  obtain ⟨ns, hns, hname⟩ := name?_lays hn
  obtain ⟨us, hus, hvariables⟩ := variableDefs?_lays hvars
  obtain ⟨vs, hvs, hdirectives⟩ := directives?_lays hds
  obtain ⟨ws, hws, hset⟩ := selections_lays _ hbody
  obtain ⟨hinside, hspan⟩ := stand_part_iff.mp hset
  refine ⟨⟨.name type.toText, first.span⟩ :: (ns ++ (us ++ (vs ++ ws))), ?_, ?_⟩
  · rw [keyword_takes hfirst, hns, hus, hvs, hws]
    simp only [List.cons_append, List.append_assoc]
  · have hrest := hname.append (hvariables.append (hdirectives.append hinside))
    apply stand_part_iff.mpr
    constructor
    · exact hrest.name type.toText first.span
    · rw [hull?_cons, stopAfter_append, stopAfter_append, stopAfter_append,
        stopAfter_of_hull? hspan]

theorem fragmentDef_lays : Lays schema (fragmentDef schema) fun f => [f.layout schema] := by
  intro s f s' h
  simp only [fragmentDef, bind_ok] at h
  obtain ⟨first, s₁, hfirst, n, s₂, hn, h⟩ := h
  split_ifs at h
  · obtain ⟨_, _, hfail, -⟩ := bind_ok.mp h
    exact absurd hfail failAt_not_ok
  · simp only [bind_ok] at h
    obtain ⟨on, s₃, hon, c, s₄, hc, ds, s₅, hds, found, s₆, hfound, body, s₇, hbody, h⟩ := h
    obtain ⟨rfl, rfl⟩ := findFields_ok hfound
    obtain ⟨rfl, rfl⟩ := pure_ok.mp h
    obtain ⟨vs, hvs, hdirectives⟩ := directives?_lays hds
    obtain ⟨ws, hws, hset⟩ := selections_lays _ hbody
    obtain ⟨hinside, hspan⟩ := stand_part_iff.mp hset
    refine ⟨⟨.name (lit "fragment"), first.span⟩ :: ⟨.name n.value, n.span⟩ ::
      ⟨.name (lit "on"), on.span⟩ :: ⟨.name c.value, c.span⟩ :: (vs ++ ws), ?_, ?_⟩
    · rw [keyword_takes hfirst, name_takes hn, keyword_takes hon, name_takes hc, hvs, hws]
      simp only [List.cons_append, List.append_assoc]
    · have hrest := hdirectives.append hinside
      apply stand_part_iff.mpr
      constructor
      · exact (((hrest.word c).name (lit "on") on.span).word n).name (lit "fragment") first.span
      · rw [hull?_cons, stopAfter_cons, stopAfter_cons, stopAfter_cons, stopAfter_append,
          stopAfter_of_hull? hspan]

/-- A definition takes some tokens, and stands there in one of its forms. -/
theorem definition_lays {d : Definition} (h : definition schema s = .ok d s') :
    ∃ l ∈ d.layoutForms schema, ∃ ts, s.pending = ts ++ s'.pending ∧ Stand schema [l] ts := by
  have hkeyworded : ∀ {type : OperationType},
      (.operation <$> operation schema type) s = .ok d s' →
      ∃ l ∈ d.layoutForms schema, ∃ ts, s.pending = ts ++ s'.pending ∧ Stand schema [l] ts := by
    intro type h
    obtain ⟨op, hop, rfl⟩ := map_ok.mp h
    exact ⟨op.layout schema, List.mem_cons_self, operation_lays type hop⟩
  simp only [definition, bind_ok, peek_ok] at h
  obtain ⟨_, _, ⟨rfl, rfl⟩, h⟩ := h
  cases hfront : s.front.value with
  | name text =>
    simp only [hfront] at h
    split_ifs at h
    · exact hkeyworded h
    · exact hkeyworded h
    · exact hkeyworded h
    · obtain ⟨f, hf, rfl⟩ := map_ok.mp h
      exact ⟨f.layout schema, List.mem_cons_self, fragmentDef_lays hf⟩
    · exact absurd h unexpected_not_ok
  | mark m =>
    cases m
    all_goals simp only [hfront] at h
    case curlyOpen =>
      obtain ⟨op, hop, rfl⟩ := map_ok.mp h
      obtain ⟨hbare, hstand⟩ := shorthand_lays hop
      refine ⟨op.bareLayout schema, ?_, hstand⟩
      show op.bareLayout schema ∈ op.layoutForms schema
      rw [Operation.layoutForms, if_pos hbare]
      exact List.mem_cons_of_mem _ List.mem_cons_self
    all_goals exact absurd h unexpected_not_ok
  | scalar l =>
    simp only [hfront] at h
    exact absurd h unexpected_not_ok
  | endOfFile =>
    simp only [hfront] at h
    exact absurd h unexpected_not_ok

theorem layoutForms_part {d : Definition} {l : Layout} (h : l ∈ d.layoutForms schema) :
    ∃ span inside, l = .part span inside := by
  cases d with
  | operation op =>
    rcases List.mem_cons.mp h with rfl | h
    · exact ⟨_, _, rfl⟩
    · split_ifs at h
      · exact ⟨_, _, List.mem_singleton.mp h⟩
      · cases h
  | fragment f => exact ⟨_, _, List.mem_singleton.mp h⟩

/-- Definitions stand in all the tokens up to the end of the file. -/
theorem definitionsUpTo_lays (fuel : Nat) {doc : Document} (hs : ∀ t ∈ s.values, t ≠ .endOfFile)
    (hfuel : s.pending.length < fuel) (h : definitionsUpTo schema fuel s = .ok doc s') :
    ∃ ls, doc.LaidOut schema ls ∧ Stand schema ls s.pending := by
  induction fuel generalizing s doc with
  | zero => exact absurd hfuel (Nat.not_lt_zero _)
  | succ fuel ih =>
    simp only [definitionsUpTo, bind_ok] at h
    obtain ⟨d, s₁, hd, _, _, hpeek, h⟩ := h
    obtain ⟨rfl, rfl⟩ := peek_ok.mp hpeek
    obtain ⟨l, hl, us, hus, hstand⟩ := definition_lays hd
    have hs₁ : ∀ t ∈ s₁.values, t ≠ .endOfFile := by
      intro t ht
      apply hs t
      rw [Tokens.values, hus, List.map_append]
      exact List.mem_append_right _ ht
    split_ifs at h with hend
    · obtain ⟨rfl, rfl⟩ := pure_ok.mp h
      have hnil : s₁.pending = [] :=
        List.map_eq_nil_iff.mp ((front_endOfFile_iff hs₁).mp hend)
      rw [hus, hnil, List.append_nil]
      exact ⟨[l], .cons hl .nil, hstand⟩
    · obtain ⟨more, s₂, hmore, h⟩ := bind_ok.mp h
      obtain ⟨rfl, rfl⟩ := pure_ok.mp h
      -- Every definition takes a token, so that the fuel lasts.
      have htakes : us ≠ [] := by
        rintro rfl
        obtain ⟨span, inside, rfl⟩ := layoutForms_part hl
        cases (stand_part_iff.mp hstand).2
      have hlen : s₁.pending.length < fuel := by
        have hpos := List.length_pos_iff.mpr htakes
        rw [hus, List.length_append] at hfuel
        omega
      obtain ⟨ls, hlaid, hstands⟩ := ih hs₁ hlen hmore
      refine ⟨l :: ls, .cons hl hlaid, ?_⟩
      rw [hus]
      exact hstand.append hstands

end Parser

namespace Document

/-- Every span of a document that is read from a text is that of a run of tokens without a gap, the
tokens that its node is written with: it starts where the first of them does and ends where the last
of them does. So no span is empty, the span of a node holds those of the nodes in it, and spans side
by side are disjoint and in order. -/
theorem spans_of_ofText {schema : Schema} {t : Text} {doc : Document}
    (h : ofText schema t = .ok doc) :
    ∃ tokens ls, Tokens.ofText t = .ok tokens ∧ doc.LaidOut schema ls ∧
      doc.Renders schema (allPieces ls) ∧ Stand schema ls tokens.pending ∧
      (spans ls).Pairwise (fun a b => a.stop ≤ b.start) ∧ ∀ l ∈ ls, l.Nests := by
  obtain ⟨tokens, s', htokens, hdoc⟩ := ofText_eq_ok_iff.mp h
  have hfuel : tokens.pending.length < tokens.pending.length + 1 := Nat.lt_succ_self _
  obtain ⟨ls, hlaid, hstand⟩ :=
    Parser.definitionsUpTo_lays _ (Tokens.ofText_not_endOfFile htokens) hfuel hdoc
  have horder := Tokens.ofText_inOrder htokens
  exact ⟨tokens, ls, htokens, hlaid, hlaid.renders, hstand, hstand.nests horder⟩

end Document

namespace Switch

/-- A query with spans of every kind but those of fragments in place. -/
def spannedSource : Text :=
  lit "query Q($v:[Flag!]=[1]){b:a(on:$v)@skip(if:$v) ...F}\nfragment F on Query{a}"

theorem spans_of_ofText_spannedSource :
    ∃ doc tokens ls, Document.ofText schema spannedSource = .ok doc ∧
      Tokens.ofText spannedSource = .ok tokens ∧ doc.LaidOut schema ls ∧
      doc.Renders schema (allPieces ls) ∧ Stand schema ls tokens.pending ∧
      (spans ls).Pairwise (fun a b => a.stop ≤ b.start) ∧ ∀ l ∈ ls, l.Nests := by
  have hparses : (Document.ofText schema spannedSource).isOk = true := by decide +kernel
  cases hdoc : Document.ofText schema spannedSource with
  | error e =>
    rw [hdoc] at hparses
    cases hparses
  | ok doc =>
    obtain ⟨tokens, ls, hspans⟩ := Document.spans_of_ofText hdoc
    exact ⟨doc, tokens, ls, rfl, hspans⟩

end Switch

end GraphQL
