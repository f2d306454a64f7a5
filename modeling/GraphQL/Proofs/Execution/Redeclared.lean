import GraphQL.Proofs.Execution.Reached
import GraphQL.Proofs.Execution.Selected
import GraphQL.Proofs.Execution.Signatures

/-! Schemas whose objects declare the fields of their interfaces again as these have them, and
values that are of the types they are resolved at. There execution keeps to the types that the
document was checked with. -/

namespace GraphQL

/-- Two declarations of a field: it has the same type, and its arguments have the same defaults. -/
structure FieldDef.Alike (f g : FieldDef) : Prop where
  type : f.type = g.type
  defaults : ∀ name, FieldArguments.defaultsOf (f.arguments.getD []) name =
    FieldArguments.defaultsOf (g.arguments.getD []) name

theorem FieldDef.Alike.refl (f : FieldDef) : f.Alike f := ⟨rfl, fun _ => rfl⟩

theorem FieldDef.Alike.symm {f g : FieldDef} (h : f.Alike g) : g.Alike f :=
  ⟨h.type.symm, fun name => (h.defaults name).symm⟩

theorem FieldDef.Alike.trans {f g h : FieldDef} (hfg : f.Alike g) (hgh : g.Alike h) : f.Alike h :=
  ⟨hfg.type.trans hgh.type, fun name => (hfg.defaults name).trans (hgh.defaults name)⟩

namespace Schema

/-- Objects declare the fields of their interfaces as these do. -/
def Redeclares (s : Schema) : Prop :=
  ∀ o d p i field f, s.type? o = some (.object d) → p ∈ d.interfaces →
    s.type? p = some (.interface i) → (TypeDef.interface i).field? field = some f →
    ∃ g, (TypeDef.object d).field? field = some g ∧ g.Alike f

/-- The objects among the types. -/
def objects (s : Schema) : List ObjectDef :=
  s.types.filterMap fun
    | (_, .object d) => some d
    | _ => none

variable {s : Schema} {o p q : Text} {t u : TypeDef} {field : Text} {f g : FieldDef}

/-- It is enough that objects have the very fields of their interfaces. -/
theorem redeclares_of_objects (h : ∀ d ∈ s.objects, ∀ p ∈ d.interfaces, ∀ i,
    s.type? p = some (.interface i) → ∀ f ∈ i.fields, (TypeDef.object d).field? f.name = some f) :
    s.Redeclares := by
  intro o d p i field f ho hp hi hf
  have hd : d ∈ s.objects := List.mem_filterMap.mpr ⟨_, Keyed.mem_of_get? ho, rfl⟩
  have hname : f.name = field := by simpa using List.find?_some hf
  have hfound := h d hd p hp i hi f (List.mem_of_find?_eq_some hf)
  exact ⟨f, hname ▸ hfound, .refl f⟩

theorem exists_type_of_isNamedSubtype (hs : s.WellNamed) (hp : s.type? p = some t)
    (h : s.isNamedSubtype o p = true) : ∃ u, s.type? o = some u := by
  rcases (isNamedSubtype_iff hs).mp h with rfl | ⟨u, _, ho, -⟩
  · exact ⟨t, hp⟩
  · exact ⟨u, ho⟩

/-- What stands for a type has the fields of the type as that declares them. -/
theorem Redeclares.exists_alike (hr : s.Redeclares) (hs : s.WellNamed) (ho : s.type? o = some u)
    (hp : s.type? p = some t) (h : s.isNamedSubtype o p = true) (hf : t.field? field = some f) :
    ∃ g, u.field? field = some g ∧ g.Alike f := by
  rcases (isNamedSubtype_iff_mem hs ho hp).mp h with rfl | hmem
  · rw [ho] at hp
    obtain rfl := Option.some.inj hp
    exact ⟨f, hf, .refl f⟩
  · rcases possible_cases hmem with ⟨i, d, rfl, rfl, hi⟩ | ⟨w, rfl, -⟩
    · have hname : i.name = p := hs.name_of_type? hp
      exact hr o d p i field f ho (hname ▸ hi) hp hf
    · cases hf

/-- Types that something stands for declare a field in common alike. -/
theorem Redeclares.alike (hr : s.Redeclares) (hs : s.WellNamed) (hp : s.type? p = some t)
    (hq : s.type? q = some u) (hop : s.isNamedSubtype o p = true)
    (hoq : s.isNamedSubtype o q = true) (hf : t.field? field = some f)
    (hg : u.field? field = some g) : g.Alike f := by
  obtain ⟨v, ho⟩ := exists_type_of_isNamedSubtype hs hp hop
  obtain ⟨f', hf', hff⟩ := hr.exists_alike hs ho hp hop hf
  obtain ⟨g', hg', hgg⟩ := hr.exists_alike hs ho hq hoq hg
  rw [hf'] at hg'
  obtain rfl := Option.some.inj hg'
  exact hgg.symm.trans hff

end Schema

/-- A value as a schema has it: what it is of stands for the type it is resolved as, and for the
type that its fields are declared by. -/
structure Subject.Conforms (s : Schema) (t : TypeDef) (v : Subject) : Prop where
  place : s.isNamedSubtype v.objectName t.name = true
  known : s.type? v.type.name = some v.type
  fields : s.isNamedSubtype v.objectName v.type.name = true

/-- The cursors that execution comes to from one on as long as values conform to the types that they
are resolved as. -/
inductive Cursor.WellReached (start : Cursor) : Cursor → Prop where
  | start : WellReached start start
  | planned {c c' : Cursor} {selections : SelectionSet} {v : Subject} (h : WellReached start c)
      (selected : c.selections = some selections)
      (conforms : v.Conforms c.scope.schema c.currentType.innermost)
      (planned : c' ∈ (Plan.ofSelectionSet v c selections).cursors) : WellReached start c'
  | item {c : Cursor} (h : WellReached start c) (i : Nat) : WellReached start (c.atIndex i)

/-- A cursor on a type of the schema, with selections that are as the rules ask on that type. -/
structure Cursor.IsTyped (scope : Scope) (c : Cursor) : Prop where
  inScope : c.scope = scope
  known : scope.schema.type? c.currentType.innermost.name = some c.currentType.innermost
  selections : ∀ xs, c.selections = some xs →
    SelectionSet.Checked scope.schema scope.fragments (some c.currentType.innermost) xs

theorem Cursor.innermost_atIndex (c : Cursor) (i : Nat) :
    (c.atIndex i).currentType.innermost = c.currentType.innermost := by
  unfold atIndex
  cases he : c.currentType.element? with
  | none => rfl
  | some e => exact TypePosition.innermost_of_element? he

theorem Cursor.atInline_of_type {c : Cursor} {condition : Located Text} {t : TypeDef}
    (ht : c.scope.schema.type? condition.value = some t) (body : SelectionSet) :
    c.atInline (some condition) body =
      { c with selections := some body, currentType := .concrete t } := by
  simp [atInline, ht]

namespace Plan

variable {v : Subject} {expand : Expand} {c : Cursor}

/-- A field either tells the type of the value or is one that its type declares. -/
theorem exists_of_ofField {head : FieldHead} {body : Option SelectionSet} {s : Step}
    (h : ofField v c head body = .ok s) : s = .typename head.responseName ∨
      head.name.value ≠ lit "__typename" ∧ ∃ declaration below,
        v.type.field? head.name.value = some declaration ∧
        c.atField ⟨head, declaration⟩ body = .ok below ∧
        s = .field ⟨head.responseName, head.name.value,
          .ofField c.scope.vars head declaration.arguments, below, declaration.type.isNonNull⟩ := by
  by_cases hn : head.name.value = lit "__typename"
  · simp only [ofField, hn, beq_self_eq_true, if_true, pure, Except.pure, Except.ok.injEq] at h
    exact .inl h.symm
  · rcases ofField_cases_of_ok h with ⟨htypename, -⟩ | hfield
    · exact absurd htypename hn
    · exact .inr ⟨hn, hfield⟩

end Plan

section Typed

variable {scope : Scope} {v : Subject} {expand : Plan.Expand}

/-- A field of a value is declared alike by the type that it is selected on, so the place below it
has the type that the rules look at. -/
theorem Cursor.exists_below (hs : scope.schema.WellNamed) (hr : scope.schema.Redeclares)
    {c below : Cursor} (hc : c.scope = scope) {t : TypeDef}
    (ht : scope.schema.type? t.name = some t) (hv : v.Conforms scope.schema t) {head : FieldHead}
    (hfield : Rules.hasField t head.name.value = true) (hn : head.name.value ≠ lit "__typename")
    {g : FieldDef} (hg : v.type.field? head.name.value = some g) {body : Option SelectionSet}
    (hbelow : c.atField ⟨head, g⟩ body = .ok below) :
    ∃ f, t.field? head.name.value = some f ∧ g.Alike f ∧
      scope.schema.lookup? f.type = some below.currentType.innermost := by
  have hdeclared : (t.field? head.name.value).isSome := by
    cases t with
    | union u => simp [Rules.hasField, TypeDef.field?, TypeDef.ownFields, hn] at hfield
    | _ => simpa [Rules.hasField] using hfield
  obtain ⟨f, hf⟩ := Option.isSome_iff_exists.mp hdeclared
  have halike := hr.alike hs ht hv.known hv.place hv.fields hf hg
  obtain ⟨type, htype, rfl⟩ := exists_of_atField hbelow
  rw [hc] at htype
  refine ⟨f, hf, halike, ?_⟩
  rw [← halike.type]
  exact Schema.lookup?_of_position htype

theorem Cursor.IsTyped.atIndex {c : Cursor} (h : c.IsTyped scope) (i : Nat) :
    (c.atIndex i).IsTyped scope := by
  have hinnermost := c.innermost_atIndex i
  exact ⟨h.inScope, hinnermost ▸ h.known, hinnermost ▸ h.selections⟩

/-- Below a field the rules look at the selections with the type of the place. -/
theorem Cursor.IsTyped.atField (hs : scope.schema.WellNamed) (hr : scope.schema.Redeclares)
    {c below : Cursor} (hc : c.scope = scope) {t : TypeDef}
    (ht : scope.schema.type? t.name = some t) (hv : v.Conforms scope.schema t) {head : FieldHead}
    {body : Option SelectionSet} {rest : SelectionSet}
    (h : SelectionSet.Checked scope.schema scope.fragments (some t) (.field head body :: rest))
    (hn : head.name.value ≠ lit "__typename") {g : FieldDef}
    (hg : v.type.field? head.name.value = some g)
    (hbelow : c.atField ⟨head, g⟩ body = .ok below) : below.IsTyped scope := by
  obtain ⟨f, hf, -, hlookup⟩ := exists_below hs hr hc ht hv h.hasField hn hg hbelow
  obtain ⟨type, -, rfl⟩ := exists_of_atField hbelow
  refine ⟨hc, ?_, fun xs hxs => ?_⟩
  · rw [hs.name_of_type? hlookup]
    exact hlookup
  · obtain rfl : body = some xs := hxs
    have hbody := h.body
    rwa [Visit.typeBelow, Option.bind_some, hf, Option.bind_some, hlookup] at hbody

/-- A value that enters a fragment conforms to the condition. -/
theorem Subject.Conforms.exists_inside {t : TypeDef} (h : v.Conforms scope.schema t)
    (hs : scope.schema.WellNamed) {condition : Text}
    (hknown : (scope.schema.type? condition).isSome)
    (hstands : scope.schema.isNamedSubtype v.objectName condition = true) :
    ∃ inside, scope.schema.type? condition = some inside ∧
      scope.schema.type? inside.name = some inside ∧ v.Conforms scope.schema inside := by
  obtain ⟨inside, hinside⟩ := Option.isSome_iff_exists.mp hknown
  have hname := hs.name_of_type? hinside
  exact ⟨inside, hinside, hname ▸ hinside, hname ▸ hstands, h.known, h.fields⟩

namespace Plan

mutual

theorem isTyped_ofSelection (hs : scope.Checked) (hr : scope.schema.Redeclares)
    (hexpand : ∀ t c, ∀ f ∈ scope.fragments, c.scope = scope → v.Conforms scope.schema t →
      scope.schema.isNamedSubtype v.objectName f.condition.value = true →
      ∀ c' ∈ (expand c f).cursors, c'.IsTyped scope) :
    ∀ (x : Selection) (rest : SelectionSet) (t : TypeDef) (c : Cursor), c.scope = scope →
      scope.schema.type? t.name = some t → v.Conforms scope.schema t →
      SelectionSet.Checked scope.schema scope.fragments (some t) (x :: rest) →
      ∀ s, ofSelection v expand c x = .ok (some s) → ∀ c' ∈ s.cursors, c'.IsTyped scope
  | .field head body, rest, t, c, hc, ht, hv, h, s, hx, c', hc' => by
    obtain ⟨-, hfield⟩ := ofField_of_ofSelection hx
    rcases exists_of_ofField hfield with rfl | ⟨hn, g, below, hg, hbelow, rfl⟩
    · cases hc'
    · obtain rfl : c' = below := List.mem_singleton.mp hc'
      exact .atField hs.named hr hc ht hv h hn hg hbelow
  | .spread sp, rest, t, c, hc, ht, hv, h, s, hx, c', hc' => by
    obtain ⟨f, hput, rfl⟩ := spreadOn_of_ofSelection hx
    rw [hc] at hput
    obtain ⟨hf, hstands⟩ := Scope.stands_of_spreadOn hput
    exact hexpand t c f hf hc hv hstands c' hc'
  | .inline ⟨none, _, _⟩ body, rest, t, c, hc, ht, hv, h, s, hx, c', hc' => by
    obtain ⟨-, rfl⟩ := entersInline_of_ofSelection hx
    exact isTyped_ofSelections hs hr hexpand body t (c.atInline none body) hc ht hv h.inside c' hc'
  | .inline ⟨some condition, _, _⟩ body, rest, t, c, hc, ht, hv, h, s, hx, c', hc' => by
    obtain ⟨hentered, rfl⟩ := entersInline_of_ofSelection hx
    rw [hc] at hentered
    obtain ⟨inside, hinside, hknown, hconforms⟩ := hv.exists_inside hs.named (h.condition rfl)
      (Scope.stands_of_entersInline hentered rfl)
    have hbody : SelectionSet.Checked scope.schema scope.fragments (some inside) body :=
      hinside ▸ h.inside
    rcases List.mem_cons.mp hc' with rfl | hc'
    · rw [Cursor.atInline_of_type (hc ▸ hinside)]
      exact ⟨hc, hknown, fun xs hxs => Option.some.inj hxs ▸ hbody⟩
    · exact isTyped_ofSelections hs hr hexpand body inside (c.atInline (some condition) body) hc
        hknown hconforms hbody c' hc'

theorem isTyped_ofSelections (hs : scope.Checked) (hr : scope.schema.Redeclares)
    (hexpand : ∀ t c, ∀ f ∈ scope.fragments, c.scope = scope → v.Conforms scope.schema t →
      scope.schema.isNamedSubtype v.objectName f.condition.value = true →
      ∀ c' ∈ (expand c f).cursors, c'.IsTyped scope) :
    ∀ (xs : List Selection) (t : TypeDef) (c : Cursor), c.scope = scope →
      scope.schema.type? t.name = some t → v.Conforms scope.schema t →
      SelectionSet.Checked scope.schema scope.fragments (some t) xs →
      ∀ c' ∈ (ofSelections v expand c xs).cursors, c'.IsTyped scope
  | [], _, _, _, _, _, _, _, hc' => by simp [ofSelections, cursors] at hc'
  | x :: rest, t, c, hc, ht, hv, h, c', hc' => by
    have hrest := isTyped_ofSelections hs hr hexpand rest t c hc ht hv h.tail
    unfold ofSelections at hc'
    rcases hx : ofSelection v expand c x with e | _ | s
    · simp [hx, cursors] at hc'
    · rw [hx] at hc'
      exact hrest c' hc'
    · rw [hx] at hc'
      rcases List.mem_append.mp hc' with hc' | hc'
      · exact isTyped_ofSelection hs hr hexpand x rest t c hc ht hv h s hx c' hc'
      · exact hrest c' hc'

end

theorem isTyped_expandUpTo (hs : scope.Checked) (hr : scope.schema.Redeclares) (depth : Nat) :
    ∀ t c, ∀ f ∈ scope.fragments, c.scope = scope → v.Conforms scope.schema t →
      scope.schema.isNamedSubtype v.objectName f.condition.value = true →
      ∀ c' ∈ (expandUpTo v depth c f).cursors, c'.IsTyped scope := by
  induction depth with
  | zero => simp [expandUpTo, cursors]
  | succ depth ih =>
    intro t c f hf hc hv hstands
    obtain ⟨inside, hinside, hknown, hconforms⟩ :=
      hv.exists_inside hs.named (hs.conditions f hf) hstands
    exact isTyped_ofSelections hs hr ih f.selections inside c hc hknown hconforms
      (hinside ▸ hs.fragments f hf)

end Plan

/-- As long as values conform, execution comes to selections that are checked with the types of
their places. -/
theorem Cursor.WellReached.isTyped (hs : scope.Checked) (hr : scope.schema.Redeclares)
    {start c : Cursor} (h : start.WellReached c) (hstart : start.IsTyped scope) :
    c.IsTyped scope := by
  induction h with
  | start => exact hstart
  | planned h selected conforms planned ih =>
    exact Plan.isTyped_ofSelections hs hr (Plan.isTyped_expandUpTo hs hr _) _ _ _ ih.inScope
      ih.known (ih.inScope ▸ conforms) (ih.selections _ selected) _ planned
  | item h i ih => exact ih.atIndex i

theorem Operation.isTyped_cursor {s : Schema} (hs : s.WellNamed) {doc : Document} {op : Operation}
    {settings : Settings} {root : TypeDef} (hdoc : doc.Checked s) (hop : op ∈ doc.operations)
    (hroot : s.root? op.type = some root) :
    (op.cursor (op.scope s doc settings) root).IsTyped (op.scope s doc settings) := by
  obtain ⟨name, -, hname⟩ := Option.bind_eq_some_iff.mp hroot
  have hknown : s.type? root.name = some root := hs.name_of_type? hname ▸ hname
  have hsel : SelectionSet.Checked s doc.fragments (some root) op.selections :=
    hroot ▸ hdoc.operations op hop
  unfold cursor
  split <;> exact ⟨rfl, hknown, fun xs hxs => Option.some.inj hxs ▸ hsel⟩

end Typed

end GraphQL
