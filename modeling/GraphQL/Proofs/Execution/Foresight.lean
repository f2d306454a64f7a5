import GraphQL.Proofs.Execution.Collected
import GraphQL.Proofs.Execution.Reached
import GraphQL.Proofs.Execution.Signatures
import GraphQL.Validation

/-! What look-ahead shows of a field against what is resolved on an object below it. Look-ahead
narrows selections by the object types that their fragments name, execution meets the conditions of
fragments with the object it has; narrowed to the type of the object, look-ahead leaves nothing
out. -/

namespace GraphQL

theorem Schema.name_of_meetsCondition {s : Schema} (hs : s.WellNamed) {condition o : Text}
    {t : TypeDef} (ht : s.type? condition = some t)
    (hm : s.meetsCondition condition o = .ok true) (hobject : t.isObject = true) : t.name = o := by
  rw [hs.name_of_type? ht]
  by_contra hne
  have habstract : t.isAbstract = false := by
    cases t with
    | object d => rfl
    | _ => cases hobject
  cases ho : s.type? o with
  | none => simp [meetsCondition, hne, requireType, ht, ho, bind, Except.bind] at hm
  | some t' =>
    simp [meetsCondition, hne, requireType, ht, ho, habstract, bind, Except.bind, pure,
      Except.pure] at hm

namespace LookAhead

theorem narrowAll_append (o : Text) (xs ys : List LookAhead) :
    narrowAll o (xs ++ ys) = narrowAll o xs ++ narrowAll o ys := by
  induction xs with
  | nil => rfl
  | cons l rest ih =>
    rw [List.cons_append, narrowAll, narrowAll, ih]
    split <;> simp

variable {scope : Scope} {expand : Expand} {p : Place}

theorem exists_of_ofSelections_cons {x : Selection} {rest : SelectionSet} {ls : List LookAhead}
    (h : ofSelections scope expand p (x :: rest) = .ok ls) :
    ∃ first others, ofSelection scope expand p x = .ok first ∧
      ofSelections scope expand p rest = .ok others ∧ ls = first ++ others := by
  rw [ofSelections] at h
  cases hx : ofSelection scope expand p x with
  | error v => simp [hx, bind, Except.bind] at h
  | ok first =>
    cases hr : ofSelections scope expand p rest with
    | error v => simp [hx, hr, bind, Except.bind] at h
    | ok others =>
      simp only [hx, hr, bind, Except.bind, pure, Except.pure, Except.ok.injEq] at h
      exact ⟨first, others, rfl, rfl, h.symm⟩

/-- What look-ahead makes of a selection that is not excluded. -/
def enter (scope : Scope) (expand : Expand) (p : Place) :
    Selection → Except Violation (List LookAhead)
  | .field head none => .ok [ofField scope head (declaration? p head) p.appliesTo []]
  | .field head (some body) => do
    let below := (declaration? p head).bind fun d => scope.schema.lookup? d.type
    let children ← ofSelections scope expand ⟨below, none⟩ body
    return [ofField scope head (declaration? p head) p.appliesTo children]
  | .spread sp => do
    let f ← scope.requireFragment sp.name.value
    expand (p.inFragment (scope.schema.type? f.condition.value)) f
  | .inline head body =>
    ofSelections scope expand
      (head.condition.elim p fun name => p.inFragment (scope.schema.type? name.value)) body

theorem ofSelection_eq (x : Selection) : ofSelection scope expand p x =
    (Directives.exclude scope.vars (x.directives.getD [])).bind fun excluded =>
      if excluded then .ok [] else enter scope expand p x := by
  rcases x with ⟨head, _ | body⟩ | sp | ⟨⟨condition, directives, span⟩, body⟩
  · rfl
  · rfl
  · rfl
  · cases condition <;> rfl

theorem enter_field_eq_ok_iff {head : FieldHead} {body : Option SelectionSet}
    {ls : List LookAhead} : enter scope expand p (.field head body) = .ok ls ↔ ∃ children,
      ofSelections scope expand ⟨Visit.typeBelow scope.schema p.parent head.name.value, none⟩
        (body.getD []) = .ok children ∧
      ls = [ofField scope head (declaration? p head) p.appliesTo children] := by
  cases body with
  | none => simp [enter, ofSelections, eq_comm]
  | some body =>
    let below : Place := ⟨Visit.typeBelow scope.schema p.parent head.name.value, none⟩
    change (ofSelections scope expand below body).bind (fun children =>
      .ok [ofField scope head (declaration? p head) p.appliesTo children]) = .ok ls ↔ _
    cases hbody : ofSelections scope expand below body with
    | error v => simp [Except.bind, below, hbody]
    | ok children => simp [Except.bind, below, hbody, eq_comm]

theorem enter_spread_eq_ok_iff {sp : Spread} {ls : List LookAhead} :
    enter scope expand p (.spread sp) = .ok ls ↔ ∃ f,
      scope.requireFragment sp.name.value = .ok f ∧
      expand (p.inFragment (scope.schema.type? f.condition.value)) f = .ok ls := by
  unfold enter
  cases hfound : scope.requireFragment sp.name.value with
  | error v => simp [hfound, bind, Except.bind]
  | ok f => simp [hfound, bind, Except.bind]

end LookAhead

namespace LookAhead

section Showing

variable {scope : Scope} {o : Text} {d : ObjectDef} {declared : Prop}

/-- Selections at a place apply to objects of a type. Where it counts, the type they are made on has
what is selected on it directly. -/
structure Place.Serves (scope : Scope) (o : Text) (declared : Prop) (p : Place)
    (selections : SelectionSet) : Prop where
  applies : p.appliesTo.all (· == o) = true
  declares : declared → ∃ name t, scope.schema.type? name = some t ∧ p.parent = some t ∧
    t.Declares selections

/-- Look-ahead shows the field, and its arguments as the type declares it. -/
structure Shows (vars : Variables) (t : TypeDef) (declared : Prop) (f : RootField)
    (l : LookAhead) : Prop where
  field : (f.head.name.value, f.head.aliasName.map (·.value)) = (l.name, l.aliasName)
  arguments : declared → Rules.hasField t f.head.name.value = true →
    f.head.signature vars t = l.signature

/-- Look-ahead narrowed to an object type shows all fields that are collected on the object. -/
def ShowAll (scope : Scope) (d : ObjectDef) (o : Text) (declared : Prop)
    (ls : List LookAhead) (x : Except Violation (List RootField)) : Prop :=
  ∃ fields, x = .ok fields ∧
    List.SublistForall₂ (Shows scope.vars (.object d) declared) fields (narrowAll o ls)

theorem Place.Serves.tail {p : Place} {x : Selection} {rest : SelectionSet}
    (h : p.Serves scope o declared (x :: rest)) : p.Serves scope o declared rest := by
  refine ⟨h.applies, fun hd => ?_⟩
  obtain ⟨name, t, ht, hp, hdecl⟩ := h.declares hd
  exact ⟨name, t, ht, hp, fun head hm => hdecl head (List.mem_append_right _ hm)⟩

theorem Place.Serves.inside {p : Place} {head : InlineHead} {body rest : SelectionSet}
    (h : p.Serves scope o declared (.inline head body :: rest)) (hc : head.condition = none) :
    p.Serves scope o declared body := by
  refine ⟨h.applies, fun hd => ?_⟩
  obtain ⟨name, t, ht, hp, hdecl⟩ := h.declares hd
  obtain ⟨condition, _, _⟩ := head
  obtain rfl : condition = none := hc
  exact ⟨name, t, ht, hp, fun head hm => hdecl head (List.mem_append_left _ hm)⟩

/-- A fragment that applies to an object keeps its selections for objects of that type. -/
theorem Place.Serves.inFragment {p : Place} {condition : Text}
    {outer body : SelectionSet} (hp : p.Serves scope o declared outer) (hs : scope.Checked)
    (hknown : (scope.schema.type? condition).isSome)
    (hm : scope.schema.meetsCondition condition o = .ok true)
    (hb : SelectionSet.Checked scope.schema scope.fragments (scope.schema.type? condition) body) :
    (p.inFragment (scope.schema.type? condition)).Serves scope o declared body := by
  obtain ⟨t, ht⟩ := Option.isSome_iff_exists.mp hknown
  rw [ht] at hb ⊢
  have hb := hb.declares
  unfold Place.inFragment
  by_cases hobject : t.isObject = true ∧ p.parent.all (·.name != t.name) = true
  · have hname := Schema.name_of_meetsCondition hs.named ht hm hobject.1
    simp only [hobject.1, hobject.2, Bool.and_self, if_true]
    exact ⟨by simp [hname], fun _ => ⟨condition, t, ht, rfl, hb⟩⟩
  · have hsame : (t.isObject && p.parent.all (·.name != t.name)) = false := by
      simpa using hobject
    simp only [hsame, Bool.false_eq_true, if_false]
    exact ⟨hp.applies, fun _ => ⟨condition, t, ht, rfl, hb⟩⟩

theorem ShowAll.nil {ls : List LookAhead} : ShowAll scope d o declared ls (.ok []) :=
  ⟨[], rfl, .nil⟩

theorem shows_ofField (hdefaults : declared → scope.schema.AgreesOnDefaults)
    (ho : scope.schema.type? o = some (.object d)) {p : Place} {head : FieldHead}
    {body : Option SelectionSet} {rest : SelectionSet}
    (hp : p.Serves scope o declared (.field head body :: rest)) (children : List LookAhead) :
    Shows scope.vars (.object d) declared ⟨head, body⟩
      ((ofField scope head (declaration? p head) p.appliesTo children).narrow o) := by
  refine ⟨rfl, fun hd hfield => ?_⟩
  obtain ⟨name, t, ht, hparent, hdecl⟩ := hp.declares hd
  have hhas : Rules.hasField t head.name.value = true :=
    hdecl head (by simp [Selection.directOf, Selection.direct])
  have hshown : LookAhead.signature
      ((ofField scope head (declaration? p head) p.appliesTo children).narrow o) =
        head.signature scope.vars t := by
    simp [declaration?, hparent, signature, ofField, narrow, FieldHead.signature]
  rw [hshown]
  exact FieldHead.signature_congr (hdefaults hd o _ name t ho ht _ hfield hhas)

variable {expand : Expand} {collect : RootField.Expand}

mutual

theorem showAll_enter (hs : scope.Checked) (ho : scope.schema.type? o = some (.object d))
    (hdefaults : declared → scope.schema.AgreesOnDefaults)
    (hexpand : ∀ p, ∀ f ∈ scope.fragments, p.Serves scope o declared f.selections →
      ∀ ls, expand p f = .ok ls → ShowAll scope d o declared ls (collect f)) :
    ∀ (x : Selection) (rest : SelectionSet) (bound : Option TypeDef) (p : Place),
      SelectionSet.Checked scope.schema scope.fragments bound (x :: rest) →
      p.Serves scope o declared (x :: rest) → ∀ ls, enter scope expand p x = .ok ls →
        ShowAll scope d o declared ls (RootField.enter scope o collect x)
  | .field head body, rest, bound, p, _, hp, ls, hls => by
    obtain ⟨children, -, rfl⟩ := enter_field_eq_ok_iff.mp hls
    refine ⟨[⟨head, body⟩], rfl, ?_⟩
    have happlies : (ofField scope head (declaration? p head) p.appliesTo
        children).appliesTo.all (· == o) = true := hp.applies
    rw [narrowAll, if_pos happlies]
    exact .cons (shows_ofField hdefaults ho hp children) .nil
  | .spread sp, rest, bound, p, hc, hp, ls, hls => by
    obtain ⟨f, hf, hreq⟩ := Scope.exists_requireFragment hc.spread
    obtain ⟨applies, hm⟩ := Schema.meetsCondition_of_known (hs.conditions f hf)
      (o := o) (by simp [ho])
    have hls : expand (p.inFragment (scope.schema.type? f.condition.value)) f = .ok ls := by
      simpa [enter, hreq, bind, Except.bind] using hls
    unfold RootField.enter
    simp only [hreq, hm, bind, Except.bind]
    cases applies with
    | false => exact .nil
    | true =>
      exact hexpand _ f hf (hp.inFragment hs (hs.conditions f hf) hm (hs.fragments f hf)) ls hls
  | .inline ⟨none, _, _⟩ body, rest, bound, p, hc, hp, ls, hls =>
    showAll_ofSelections hs ho hdefaults hexpand body bound p hc.inside (hp.inside rfl) ls hls
  | .inline ⟨some condition, _, _⟩ body, rest, bound, p, hc, hp, ls, hls => by
    have hknown := hc.condition rfl
    obtain ⟨applies, hm⟩ := Schema.meetsCondition_of_known hknown (o := o) (by simp [ho])
    unfold RootField.enter
    simp only [hm, bind, Except.bind]
    cases applies with
    | false => exact .nil
    | true =>
      exact showAll_ofSelections hs ho hdefaults hexpand body _ _ hc.inside
        (hp.inFragment hs hknown hm hc.inside) ls hls

theorem showAll_ofSelections (hs : scope.Checked) (ho : scope.schema.type? o = some (.object d))
    (hdefaults : declared → scope.schema.AgreesOnDefaults)
    (hexpand : ∀ p, ∀ f ∈ scope.fragments, p.Serves scope o declared f.selections →
      ∀ ls, expand p f = .ok ls → ShowAll scope d o declared ls (collect f)) :
    ∀ (xs : List Selection) (bound : Option TypeDef) (p : Place),
      SelectionSet.Checked scope.schema scope.fragments bound xs →
      p.Serves scope o declared xs → ∀ ls, ofSelections scope expand p xs = .ok ls →
        ShowAll scope d o declared ls (RootField.ofSelections scope o collect xs)
  | [], _, _, _, _, _, _ => .nil
  | x :: rest, bound, p, hc, hp, ls, hls => by
    obtain ⟨first, others, hfirst, hothers, rfl⟩ := exists_of_ofSelections_cons hls
    have hhead : ShowAll scope d o declared first (RootField.ofSelection scope o collect x) := by
      rw [ofSelection_eq] at hfirst
      rw [RootField.ofSelection_eq]
      cases hx : Directives.exclude scope.vars (x.directives.getD []) with
      | error v => exact nomatch hx ▸ hfirst
      | ok excluded =>
        rw [hx] at hfirst
        cases excluded with
        | true => exact .nil
        | false => exact showAll_enter hs ho hdefaults hexpand x rest bound p hc hp first hfirst
    obtain ⟨fields, hfields, hl⟩ := hhead
    obtain ⟨fields', hfields', hl'⟩ :=
      showAll_ofSelections hs ho hdefaults hexpand rest bound p hc.tail hp.tail others hothers
    rw [RootField.ofSelections, hfields, hfields']
    refine ⟨fields ++ fields', rfl, ?_⟩
    rw [narrowAll_append]
    exact sublistForall₂_append hl hl'

end

theorem showAll_expandUpTo (hs : scope.Checked) (ho : scope.schema.type? o = some (.object d))
    (hdefaults : declared → scope.schema.AgreesOnDefaults) (depth : Nat) :
    ∀ p, ∀ f ∈ scope.fragments, p.Serves scope o declared f.selections →
      ∀ ls, expandUpTo scope depth p f = .ok ls →
        ShowAll scope d o declared ls (RootField.expandUpTo scope o depth f) := by
  induction depth with
  | zero => exact fun _ _ _ _ _ hls => nomatch hls
  | succ depth ih =>
    exact fun p f hf hp ls hls =>
      showAll_ofSelections hs ho hdefaults ih f.selections _ p (hs.fragments f hf) hp ls hls

end Showing

end LookAhead

theorem LookAhead.children_narrow (o : Text) (l : LookAhead) :
    (l.narrow o).children = narrowAll o l.children := by
  cases l
  rw [narrow]

theorem Cursor.children_of_lookAhead {c : Cursor} {l : LookAhead} (h : c.lookAhead = .ok l) :
    LookAhead.ofSelectionSet c.scope ⟨some c.currentType.innermost, none⟩
      (c.selections.getD []) = .ok l.children := by
  unfold lookAhead at h
  cases hc : LookAhead.ofSelectionSet c.scope ⟨some c.currentType.innermost, none⟩
      (c.selections.getD []) with
  | error v => simp [hc, bind, Except.bind] at h
  | ok children =>
    simp only [hc, bind, Except.bind] at h
    cases hf : c.field with
    | none =>
      rw [hf] at h
      obtain rfl := Except.ok.inj h
      rfl
    | some f =>
      rw [hf] at h
      obtain rfl := Except.ok.inj h
      rfl

/-- The leaves of a plan on an object are fields that the object has. -/
theorem Leaf.Selects.hasField {s : Schema} (hs : s.Built) {o : Text} {d : ObjectDef}
    (ho : s.type? o = some (.object d)) {vars : Variables} {f : RootField} {leaf : Leaf}
    (h : leaf.Selects vars (.object d) f) :
    Rules.hasField (.object d) f.head.name.value = true := by
  cases leaf with
  | typename key =>
    rw [h.1]
    exact hs.hasField_typename ho
  | field task =>
    obtain ⟨declaration, hd, -⟩ := h
    simp [Rules.hasField, hd]

section Foreseeing

variable {σ : Type}

/-- An object that leaves everything to its fields. -/
def Node.plain (o : Text) (field : Text → FieldArguments → Cursor → Action σ) : Node σ :=
  .mk o o field (fun _ => .none) .none

/-- Runs a plan with the fields of an object. -/
def Plan.resolveOn (o : Text) (field : Text → FieldArguments → Cursor → Action σ)
    (concurrent : Bool) (plan : Plan) : Resolve σ Value :=
  Run.toResolve do
    let h : Subject.Handlers σ := ⟨o, o,
      fun task => (field task.name task.arguments task.cursor).run task.cursor, fun _ _ => none⟩
    return (← (plan.tasks h concurrent).run concurrent).toValue

theorem Node.resolve_plain {o : Text} {t : TypeDef} {c : Cursor} {selections : SelectionSet}
    (hs : c.selections = some selections) (ht : c.scope.schema.type? o = some t)
    (field : Text → FieldArguments → Cursor → Action σ) :
    (Node.plain o field).resolve c =
      (Plan.ofSelectionSet ⟨t, o⟩ c selections).resolveOn o field c.isConcurrent := by
  unfold Node.plain Node.resolve Override.run?
  simp only [hs]
  rw [Cursor.resolveSelections_of_type ht]
  rfl

/-- What a resolver sees ahead of itself, narrowed to an object type, contains the fields that are
resolved on every object of that type that it resolves at its place or as an item, in their order.
Their arguments are as foreseen if the type of the place declares the fields that are selected on it
directly, and types that share a field declare the same defaults for it. -/
theorem Cursor.lookAhead_foresees {s : Schema} {doc : Document} {op : Operation}
    {settings : Settings} {root : TypeDef} {c : Cursor} {selections : SelectionSet} {l : LookAhead}
    {o : Text} {d : ObjectDef} (hs : s.Built)
    (hvalid : Validator.isValid Rules.builtin s doc = true) (hop : op ∈ doc.operations)
    (hroot : s.root? op.type = some root)
    (hc : (op.cursor (op.scope s doc settings) root).Reached c)
    (hselections : c.selections = some selections) (hl : c.lookAhead = .ok l)
    (ho : s.type? o = some (.object d)) (field : Text → FieldArguments → Cursor → Action σ)
    (c' : Cursor) (hc' : c' = c ∨ ∃ i, c' = c.atIndex i) :
    (Node.plain o field).resolve c' =
      (Plan.ofSelectionSet ⟨.object d, o⟩ c' selections).resolveOn o field c'.isConcurrent ∧
    ∃ fields collected : List RootField,
      List.Forall₂ (fun leaf f => leaf.Selects c.scope.vars (.object d) f)
        (Plan.ofSelectionSet ⟨.object d, o⟩ c' selections).leaves fields ∧
      RootField.ofSelectionSet c.scope o selections = .ok collected ∧ fields.Sublist collected ∧
      (fields.map fun f => (f.head.name.value, f.head.aliasName.map (·.value))).Sublist
        ((l.narrow o).children.map fun child => (child.name, child.aliasName)) ∧
      (s.AgreesOnDefaults → c.currentType.innermost.Declares selections →
        (fields.map (·.head.signature c.scope.vars (.object d))).Sublist
          ((l.narrow o).children.map (·.signature))) := by
  have hdoc := Document.checked_of_isValid hvalid
  have hscope : (op.scope s doc settings).Checked :=
    ⟨hs.wellNamed, hdoc.conditions, hdoc.fragments⟩
  obtain ⟨hin, ⟨name, hname⟩, hsel⟩ :=
    hc.isChecked hscope (Operation.isChecked_cursor hdoc hop hroot)
  generalize hscopes : op.scope s doc settings = scope at hscope hin hname hsel
  obtain rfl : scope.schema = s := hscopes ▸ rfl
  subst hin
  obtain ⟨bound, hbound⟩ := hsel selections hselections
  let declared := c.scope.schema.AgreesOnDefaults ∧ c.currentType.innermost.Declares selections
  have hserves : LookAhead.Place.Serves c.scope o declared ⟨some c.currentType.innermost, none⟩
      selections := ⟨rfl, fun hd => ⟨name, _, hname, rfl, hd.2⟩⟩
  have hchildren := Cursor.children_of_lookAhead hl
  rw [hselections] at hchildren
  obtain ⟨collected, hcollected, hshown⟩ := LookAhead.showAll_ofSelections hscope ho And.left
    (LookAhead.showAll_expandUpTo hscope ho And.left c.scope.fragments.length) selections bound _
    hbound hserves l.children hchildren
  obtain ⟨hscope', hselections'⟩ : c'.scope = c.scope ∧ c'.selections = some selections := by
    rcases hc' with rfl | ⟨i, rfl⟩ <;> exact ⟨rfl, hselections⟩
  obtain ⟨fields, hleaves, hsublist⟩ := List.sublistForall₂_iff.mp
    (Plan.covers_ofSelectionSet ⟨.object d, o⟩ hscope' selections collected hcollected)
  have hshows := sublistForall₂_of_sublist hsublist hshown
  rw [← LookAhead.children_narrow] at hshows
  refine ⟨Node.resolve_plain hselections' (hscope' ▸ ho) field, fields, collected, hleaves,
    hcollected, hsublist, ?_, ?_⟩
  · exact sublist_map_of_sublistForall₂ hshows fun f _ child h => h.field
  · intro hdefaults hdeclares
    refine sublist_map_of_sublistForall₂ hshows fun f hf child h =>
      h.arguments ⟨hdefaults, hdeclares⟩ ?_
    exact forall_mem_of_forall₂ hleaves (fun leaf f hleaf => hleaf.hasField hs ho) f hf

end Foreseeing

namespace Kennel

def volume : ArgumentDef :=
  ⟨lit "volume", none, .named (lit "Int") false, some (.scalar (.int 1))⟩

def field (name : Text) (arguments : Option (List ArgumentDef)) (type : Text) : FieldDef :=
  ⟨name, none, arguments, .named type false, .current⟩

def bark : FieldDef := field (lit "bark") (some [volume]) (lit "String")

/-- A box of toys stands for a holder of animals, and a dog is both. -/
def registry : Registry :=
  [.object ⟨lit "Query", none, [field (lit "pet") none (lit "Pet"),
      field (lit "holder") none (lit "Holder")], []⟩,
    .union ⟨lit "Pet", none, [lit "Cat", lit "Dog"]⟩,
    .object ⟨lit "Cat", none, [field (lit "meow") none (lit "String")], []⟩,
    .object ⟨lit "Dog", none, [bark, field (lit "size") none (lit "Int")],
      [lit "Animal", lit "Toy"]⟩,
    .interface ⟨lit "Animal", none, [bark], []⟩,
    .interface ⟨lit "Toy", none, [field (lit "size") none (lit "Int")], []⟩,
    .interface ⟨lit "Holder", none, [field (lit "held") none (lit "Animal")], []⟩,
    .object ⟨lit "Box", none, [field (lit "held") none (lit "Toy")], [lit "Holder"]⟩].foldl
      Registry.define .initial

def schema : Schema :=
  match Schema.build registry (lit "Query") none none with
  | .ok s => s
  | .error _ => ⟨[], [], none, none, [], none⟩

/-- A dog as it stands in the schema. -/
def dog : ObjectDef :=
  ⟨lit "Dog", none, [bark, field (lit "size") none (lit "Int"), Schema.typenameField],
    [lit "Animal", lit "Toy"]⟩

theorem dog_type : schema.type? (lit "Dog") = some (.object dog) := rfl

theorem built : schema.Built := by
  have hr : registry.Built := .define (.define (.define (.define (.define (.define (.define
    (.define .initial _) _) _) _) _) _) _) _
  have hs : Schema.build registry (lit "Query") none none = .ok schema := rfl
  exact .build hr hs

theorem agreesOnDefaults : schema.AgreesOnDefaults := by
  refine Schema.agreesOnDefaults_of_table
    (fun name => if name = lit "bark" then [volume] else []) rfl ?_
  have hfields : schema.types.flatMap (·.2.ownFields) = [field (lit "pet") none (lit "Pet"),
    field (lit "holder") none (lit "Holder"), Schema.typenameField,
    field (lit "meow") none (lit "String"), Schema.typenameField, bark,
    field (lit "size") none (lit "Int"), Schema.typenameField, bark, Schema.typenameField,
    field (lit "size") none (lit "Int"), Schema.typenameField,
    field (lit "held") none (lit "Animal"), Schema.typenameField,
    field (lit "held") none (lit "Toy"), Schema.typenameField] := rfl
  rw [hfields]
  intro f hf
  simp only [List.mem_cons, List.not_mem_nil, or_false] at hf
  rcases hf with rfl | rfl | rfl | rfl | rfl | rfl | rfl | rfl | rfl | rfl | rfl | rfl | rfl | rfl |
    rfl | rfl <;> rfl

def operation (selections : SelectionSet) : Operation :=
  ⟨.query, none, none, none, selections, .unlocated⟩

def head (name : Text) : FieldHead := ⟨none, .unlocated name, none, none, .unlocated⟩

def type (name : Text) : TypeDef := (schema.type? name).getD (.scalar Scalars.int)

def root (selections : SelectionSet) : Cursor :=
  (operation selections).cursor ((operation selections).scope schema
    [.operation (operation selections)] ⟨[], none, false⟩) (type (lit "Query"))

/-- The cursor of a field that is selected alone. -/
def below (c : Cursor) (declaration : FieldDef) (body : SelectionSet) : Cursor :=
  match c.atField ⟨head declaration.name, declaration⟩ (some body) with
  | .ok c' => c'
  | .error _ => c

/-- Barking, selected on what is held. -/
def held : SelectionSet := [.ofName (lit "held") (some [.ofName (lit "bark") none])]

def holder : Cursor :=
  below (root [.ofName (lit "holder") (some held)]) (field (lit "holder") none (lit "Holder")) held

def toy : Cursor :=
  below holder (field (lit "held") none (lit "Toy")) [.ofName (lit "bark") none]

def plan : Plan := Plan.ofSelectionSet ⟨.object dog, lit "Dog"⟩ toy [.ofName (lit "bark") none]

theorem reached_toy : (root [.ofName (lit "holder") (some held)]).Reached toy := by
  have hholder : (Plan.ofSelectionSet ⟨type (lit "Query"), lit "Query"⟩
      (root [.ofName (lit "holder") (some held)]) [.ofName (lit "holder") (some held)]).cursors =
        [holder] := rfl
  have htoy : (Plan.ofSelectionSet ⟨type (lit "Box"), lit "Box"⟩ holder held).cursors = [toy] := rfl
  exact (Cursor.Reached.start.planned rfl _ (hholder ▸ List.mem_cons_self)).planned rfl _
    (htoy ▸ List.mem_cons_self)

theorem isValid_held : Validator.isValid Rules.builtin schema
    [.operation (operation [.ofName (lit "holder") (some held)])] = true := by
  have h : Validator.reports Rules.builtin schema
      [.operation (operation [.ofName (lit "holder") (some held)])] = [] := by decide
  simp [Validator.isValid, Validator.validate, h]

/-- What is seen ahead of a toy: a field without arguments. -/
def ahead : LookAhead := ⟨lit "held", none, [], none, [⟨lit "bark", none, [], none, []⟩]⟩

/-- A toy is not known to bark, and so how loud it barks is not foreseen. -/
theorem bark_unforeseen : schema.Built ∧
    Validator.isValid Rules.builtin schema
      [.operation (operation [.ofName (lit "holder") (some held)])] = true ∧
    schema.AgreesOnDefaults ∧ (root [.ofName (lit "holder") (some held)]).Reached toy ∧
    (∀ answer : Text → FieldArguments → Cursor → Action Unit,
      (Node.plain (lit "Dog") answer).resolve toy =
        plan.resolveOn (lit "Dog") answer toy.isConcurrent) ∧
    schema.type? (lit "Dog") = some (.object dog) ∧ toy.lookAhead = .ok ahead ∧
    ∃ task, plan.leaves = [.field task] ∧ task.name = lit "bark" ∧
      Keyed.get? task.arguments (lit "volume") = some (.scalar (.int 1)) ∧
      ∀ child ∈ (ahead.narrow (lit "Dog")).children,
        Keyed.get? child.arguments (lit "volume") = none := by
  have hahead : (ahead.narrow (lit "Dog")).children = [⟨lit "bark", none, [], none, []⟩] := rfl
  refine ⟨built, isValid_held, agreesOnDefaults, reached_toy, Node.resolve_plain rfl rfl,
    dog_type, rfl, _, rfl, rfl, rfl, ?_⟩
  rw [hahead]
  simp

/-- A pet tells its type, if it is a dog it barks under another name, and it tells its type once
more. -/
def told : SelectionSet :=
  [.ofName (lit "__typename") none,
    .inFragment (some (lit "Dog"))
      [.field ⟨some (.unlocated (lit "loud")), .unlocated (lit "bark"), none, none, .unlocated⟩
        none],
    .inFragment (some (lit "Cat")) [.ofName (lit "meow") none],
    .inFragment (some (lit "Pet")) [.ofName (lit "__typename") none]]

def pet : Cursor :=
  below (root [.ofName (lit "pet") (some told)]) (field (lit "pet") none (lit "Pet")) told

theorem reached_pet : (root [.ofName (lit "pet") (some told)]).Reached pet := by
  have hpet : (Plan.ofSelectionSet ⟨type (lit "Query"), lit "Query"⟩
      (root [.ofName (lit "pet") (some told)]) [.ofName (lit "pet") (some told)]).cursors = [pet] :=
    rfl
  exact Cursor.Reached.start.planned rfl _ (hpet ▸ List.mem_cons_self)

theorem isValid_told : Validator.isValid Rules.builtin schema
    [.operation (operation [.ofName (lit "pet") (some told)])] = true := by
  have h : Validator.reports Rules.builtin schema
      [.operation (operation [.ofName (lit "pet") (some told)])] = [] := by decide
  simp [Validator.isValid, Validator.validate, h]

theorem pet_foreseen : schema.Built ∧
    Validator.isValid Rules.builtin schema
      [.operation (operation [.ofName (lit "pet") (some told)])] = true ∧
    (root [.ofName (lit "pet") (some told)]).Reached pet ∧ schema.AgreesOnDefaults ∧
    pet.currentType.innermost.Declares told ∧ ∃ l, pet.lookAhead = .ok l ∧
    ∃ fields : List RootField, fields.length = 3 ∧
      List.Forall₂ (fun leaf f => leaf.Selects [] (.object dog) f)
        (Plan.ofSelectionSet ⟨.object dog, lit "Dog"⟩ (pet.atIndex 0) told).leaves fields ∧
      (fields.map (·.head.signature [] (.object dog))).Sublist
        ((l.narrow (lit "Dog")).children.map (·.signature)) := by
  have hdeclares : pet.currentType.innermost.Declares told := by
    have hdirect : Selection.directOf told = [head (lit "__typename")] := rfl
    rw [TypeDef.Declares, hdirect]
    exact List.forall_mem_singleton.mpr rfl
  refine ⟨built, isValid_told, reached_pet, agreesOnDefaults, hdeclares, _, rfl, ?_⟩
  obtain ⟨-, fields, -, hleaves, -, -, -, hforeseen⟩ :=
    Cursor.lookAhead_foresees built isValid_told
      (by simp [Document.operations, Definition.operation?]) rfl reached_pet rfl rfl dog_type
      (fun _ _ _ => (.value .null : Action Unit)) (pet.atIndex 0) (.inr ⟨0, rfl⟩)
  have hlength : fields.length = 3 := hleaves.length_eq.symm
  exact ⟨fields, hlength, hleaves, hforeseen agreesOnDefaults hdeclares⟩

end Kennel

end GraphQL
