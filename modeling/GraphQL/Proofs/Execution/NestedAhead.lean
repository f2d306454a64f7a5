import GraphQL.Proofs.Execution.Ahead
import GraphQL.Proofs.Execution.ErrorPaths
import GraphQL.Proofs.Execution.Redeclared

/-! Look-ahead of a resolver against that of the resolvers below it. The same selections are looked
at twice: on the type that they are made on in the document, and on the type that the field has by
the object it is resolved on. Where objects declare the fields of their interfaces as these do, and
values conform to their types, both see the same. -/

namespace GraphQL

namespace LookAhead

section Depth

variable {scope : Scope} {expand expand' : Expand}

mutual

theorem enter_mono (hexpand : ∀ p f ls, expand p f = .ok ls → expand' p f = .ok ls) :
    ∀ (x : Selection) (p : Place) (ls : List LookAhead),
      enter scope expand p x = .ok ls → enter scope expand' p x = .ok ls
  | .field head none, _, _, h => h
  | .field head (some body), p, ls, h => by
    obtain ⟨children, hchildren, rfl⟩ := enter_field_eq_ok_iff.mp h
    have hbody := ofSelections_mono hexpand body _ children hchildren
    exact enter_field_eq_ok_iff.mpr ⟨children, hbody, rfl⟩
  | .spread sp, p, ls, h => by
    obtain ⟨f, hfound, hinside⟩ := enter_spread_eq_ok_iff.mp h
    exact enter_spread_eq_ok_iff.mpr ⟨f, hfound, hexpand _ f ls hinside⟩
  | .inline head body, p, ls, h => ofSelections_mono hexpand body _ ls h

theorem ofSelections_mono (hexpand : ∀ p f ls, expand p f = .ok ls → expand' p f = .ok ls) :
    ∀ (xs : List Selection) (p : Place) (ls : List LookAhead),
      ofSelections scope expand p xs = .ok ls → ofSelections scope expand' p xs = .ok ls
  | [], _, _, h => h
  | x :: rest, p, ls, h => by
    obtain ⟨first, others, hfirst, hothers, rfl⟩ := exists_of_ofSelections_cons h
    have hfirst' : ofSelection scope expand' p x = .ok first := by
      rw [ofSelection_eq] at hfirst ⊢
      cases hx : Directives.exclude scope.vars (x.directives.getD []) with
      | error v => exact nomatch hx ▸ hfirst
      | ok excluded =>
        rw [hx] at hfirst
        cases excluded with
        | true => exact hfirst
        | false => exact enter_mono hexpand x p first hfirst
    rw [ofSelections, hfirst', ofSelections_mono hexpand rest p others hothers]
    rfl

end

/-- What is seen with fragments going so deep is seen as well if they may go deeper. -/
theorem expandUpTo_mono {depth deeper : Nat} (h : depth ≤ deeper) : ∀ p f ls,
    expandUpTo scope depth p f = .ok ls → expandUpTo scope deeper p f = .ok ls := by
  induction depth generalizing deeper with
  | zero => exact fun _ _ _ hls => nomatch hls
  | succ depth ih =>
    cases deeper with
    | zero => exact absurd h (Nat.not_succ_le_zero depth)
    | succ deeper =>
      exact fun p f ls hls =>
        ofSelections_mono (ih (Nat.le_of_succ_le_succ h)) f.selections p ls hls

end Depth

/-- What is seen ahead of selections at a place, each field with the selection it is seen for. A
field is seen on the type of the place, and what is below it on the type that it has there. -/
inductive Produced (scope : Scope) : Place → SelectionSet → List (RootField × LookAhead) → Prop where
  | nil {p : Place} : Produced scope p [] []
  | excluded {p : Place} {x : Selection} {rest : SelectionSet} {made : List (RootField × LookAhead)}
      (excluded : Directives.exclude scope.vars (x.directives.getD []) = .ok true)
      (hrest : Produced scope p rest made) : Produced scope p (x :: rest) made
  | field {p : Place} {head : FieldHead} {body : Option SelectionSet} {rest : SelectionSet}
      {children : List LookAhead} {made : List (RootField × LookAhead)}
      (included : Directives.exclude scope.vars (head.directives.getD []) = .ok false)
      (below : ofSelectionSet scope ⟨Visit.typeBelow scope.schema p.parent head.name.value, none⟩
        (body.getD []) = .ok children)
      (hrest : Produced scope p rest made) :
      Produced scope p (.field head body :: rest)
        ((⟨head, body⟩, ofField scope head (declaration? p head) p.appliesTo children) :: made)
  | spread {p : Place} {sp : Spread} {f : Fragment} {rest : SelectionSet}
      {inner made : List (RootField × LookAhead)}
      (included : Directives.exclude scope.vars (sp.directives.getD []) = .ok false)
      (found : scope.requireFragment sp.name.value = .ok f)
      (inside : Produced scope (p.inFragment (scope.schema.type? f.condition.value)) f.selections
        inner)
      (hrest : Produced scope p rest made) : Produced scope p (.spread sp :: rest) (inner ++ made)
  | inline {p : Place} {head : InlineHead} {body rest : SelectionSet}
      {inner made : List (RootField × LookAhead)}
      (included : Directives.exclude scope.vars (head.directives.getD []) = .ok false)
      (inside : Produced scope
        (head.condition.elim p fun name => p.inFragment (scope.schema.type? name.value)) body inner)
      (hrest : Produced scope p rest made) :
      Produced scope p (.inline head body :: rest) (inner ++ made)

section Producing

variable {scope : Scope} {expand : Expand}

mutual

theorem exists_produced_enter
    (hdepth : ∀ p f ls, expand p f = .ok ls →
      expandUpTo scope scope.fragments.length p f = .ok ls)
    (hexpand : ∀ p f ls, expand p f = .ok ls →
      ∃ made, Produced scope p f.selections made ∧ made.map (·.2) = ls) :
    ∀ (x : Selection) (p : Place) (first : List LookAhead),
      Directives.exclude scope.vars (x.directives.getD []) = .ok false →
      enter scope expand p x = .ok first → ∃ inner, inner.map (·.2) = first ∧
        ∀ rest made, Produced scope p rest made → Produced scope p (x :: rest) (inner ++ made)
  | .field head body, p, first, hincluded, h => by
    obtain ⟨children, hchildren, rfl⟩ := enter_field_eq_ok_iff.mp h
    have hbelow := ofSelections_mono hdepth (body.getD []) _ children hchildren
    exact ⟨[(⟨head, body⟩, _)], rfl, fun rest made hrest => .field hincluded hbelow hrest⟩
  | .spread sp, p, first, hincluded, h => by
    obtain ⟨f, hfound, hspread⟩ := enter_spread_eq_ok_iff.mp h
    obtain ⟨inner, hinside, hinner⟩ := hexpand _ f first hspread
    exact ⟨inner, hinner, fun rest made hrest => .spread hincluded hfound hinside hrest⟩
  | .inline head body, p, first, hincluded, h => by
    obtain ⟨inner, hinside, hinner⟩ :=
      exists_produced_ofSelections hdepth hexpand body _ first h
    exact ⟨inner, hinner, fun rest made hrest => .inline hincluded hinside hrest⟩

theorem exists_produced_ofSelections
    (hdepth : ∀ p f ls, expand p f = .ok ls →
      expandUpTo scope scope.fragments.length p f = .ok ls)
    (hexpand : ∀ p f ls, expand p f = .ok ls →
      ∃ made, Produced scope p f.selections made ∧ made.map (·.2) = ls) :
    ∀ (xs : List Selection) (p : Place) (ls : List LookAhead),
      ofSelections scope expand p xs = .ok ls →
      ∃ made, Produced scope p xs made ∧ made.map (·.2) = ls
  | [], _, _, h => ⟨[], .nil, Except.ok.inj h⟩
  | x :: rest, p, ls, h => by
    obtain ⟨first, others, hfirst, hothers, rfl⟩ := exists_of_ofSelections_cons h
    obtain ⟨made, hmade, hothers⟩ :=
      exists_produced_ofSelections hdepth hexpand rest p others hothers
    rw [ofSelection_eq] at hfirst
    cases hx : Directives.exclude scope.vars (x.directives.getD []) with
    | error v => exact nomatch hx ▸ hfirst
    | ok excluded =>
      rw [hx] at hfirst
      cases excluded with
      | true =>
        obtain rfl := Except.ok.inj hfirst
        exact ⟨made, .excluded hx hmade, hothers⟩
      | false =>
        obtain ⟨inner, hinner, hcons⟩ := exists_produced_enter hdepth hexpand x p first hx hfirst
        exact ⟨inner ++ made, hcons rest made hmade, by rw [List.map_append, hinner, hothers]⟩

end

theorem exists_produced_expandUpTo {depth : Nat} (hdepth : depth ≤ scope.fragments.length) :
    ∀ p f ls, expandUpTo scope depth p f = .ok ls →
      ∃ made, Produced scope p f.selections made ∧ made.map (·.2) = ls := by
  induction depth with
  | zero => exact fun _ _ _ h => nomatch h
  | succ depth ih =>
    have hless := Nat.le_of_succ_le hdepth
    exact fun p f ls h =>
      exists_produced_ofSelections (expandUpTo_mono hless) (ih hless) f.selections p ls h

/-- All that is seen ahead is seen for some selection, in the order of the selections. -/
theorem exists_produced {p : Place} {xs : SelectionSet} {ls : List LookAhead}
    (h : ofSelectionSet scope p xs = .ok ls) :
    ∃ made, Produced scope p xs made ∧ made.map (·.2) = ls :=
  exists_produced_ofSelections (fun _ _ _ h => h)
    (exists_produced_expandUpTo (Nat.le_refl _)) xs p ls h

end Producing

end LookAhead

mutual

/-- The changes of type that a step asks for. -/
def Step.narrowings : Step → List Narrowing
  | .typename _ => []
  | .field _ => []
  | .splice plan => (plan ()).narrowings
  | .narrow n plan => n :: (plan ()).narrowings

def Plan.narrowings : Plan → List Narrowing
  | .done => []
  | .stop _ => []
  | .step s rest => s.narrowings ++ rest.narrowings

end

/-- A leaf of a plan that was seen ahead. If it is a field that is resolved, its resolver sees
ahead of itself what was seen then. -/
structure Leaf.SeenAgain (vars : Variables) (t : TypeDef) (leaf : Leaf)
    (seen : RootField × LookAhead) : Prop where
  selects : leaf.Selects vars t seen.1
  again : ∀ task, leaf = .field task → ∃ l, task.cursor.lookAhead = .ok l ∧
    l.signature = seen.2.signature ∧ l.children = seen.2.children

/-- A cursor whose selections were seen ahead, maybe among others. -/
structure Cursor.WasSeen (scope : Scope) (made : List (RootField × LookAhead)) (c : Cursor) :
    Prop where
  typed : c.IsTyped scope
  seen : ∀ xs, c.selections = some xs → ∃ place inner,
    place.parent = some c.currentType.innermost ∧ LookAhead.Produced scope place xs inner ∧
      inner.Sublist made

theorem Cursor.WasSeen.mono {scope : Scope} {made made' : List (RootField × LookAhead)} {c : Cursor}
    (h : c.WasSeen scope made) (hsub : made.Sublist made') : c.WasSeen scope made' := by
  refine ⟨h.typed, fun xs hxs => ?_⟩
  obtain ⟨place, inner, hplace, hinner, hmade⟩ := h.seen xs hxs
  exact ⟨place, inner, hplace, hinner, hmade.trans hsub⟩

/-- The leaves of a plan were seen ahead, in order, and so were the fragments that it changes the
type for. -/
structure LookAhead.Aligned (scope : Scope) (t : TypeDef) (made : List (RootField × LookAhead))
    (leaves : List Leaf) (narrowings : List Narrowing) : Prop where
  leaves : List.SublistForall₂ (Leaf.SeenAgain scope.vars t) leaves made
  narrowings : ∀ n ∈ narrowings, n.cursor.WasSeen scope made

namespace LookAhead.Aligned

variable {scope : Scope} {t : TypeDef} {first others : List (RootField × LookAhead)}

theorem nil (made : List (RootField × LookAhead)) : Aligned scope t made [] [] := ⟨.nil, by simp⟩

theorem append {leaves leaves' : List Leaf} {narrowings narrowings' : List Narrowing}
    (h : Aligned scope t first leaves narrowings)
    (h' : Aligned scope t others leaves' narrowings') :
    Aligned scope t (first ++ others) (leaves ++ leaves') (narrowings ++ narrowings') := by
  refine ⟨sublistForall₂_append h.leaves h'.leaves, fun n hn => ?_⟩
  rcases List.mem_append.mp hn with hn | hn
  · exact (h.narrowings n hn).mono (List.sublist_append_left _ _)
  · exact (h'.narrowings n hn).mono (List.sublist_append_right _ _)

/-- Selections are planned one by one, up to where planning stops. -/
theorem cons {v : Subject} {expand : Plan.Expand} {c : Cursor} {x : Selection}
    {rest : SelectionSet}
    (hx : ∀ s, Plan.ofSelection v expand c x = .ok (some s) →
      Aligned scope t first s.leaves s.narrowings)
    (hrest : Aligned scope t others (Plan.ofSelections v expand c rest).leaves
      (Plan.ofSelections v expand c rest).narrowings) :
    Aligned scope t (first ++ others) (Plan.ofSelections v expand c (x :: rest)).leaves
      (Plan.ofSelections v expand c (x :: rest)).narrowings := by
  unfold Plan.ofSelections
  rcases hs : Plan.ofSelection v expand c x with e | _ | s
  · exact nil _
  · exact (nil first).append hrest
  · exact (hx s hs).append hrest

end LookAhead.Aligned

section Nested

variable {scope : Scope} {v : Subject}

theorem Plan.exclude_of_ofSelection {expand : Plan.Expand} {c : Cursor} {x : Selection} {s : Step}
    (h : Plan.ofSelection v expand c x = .ok (some s)) :
    Directives.exclude c.scope.vars (x.directives.getD []) = .ok false := by
  cases x with
  | field head body => exact (ofField_of_ofSelection h).1
  | spread sp =>
    obtain ⟨f, hput, -⟩ := spreadOn_of_ofSelection h
    exact (Scope.spreadOn_iff.mp hput).1
  | inline head body => exact (Scope.entersInline_iff.mp (entersInline_of_ofSelection h).1).1

/-- What the resolver of a field sees is what was seen of the field before, on the type that it is
selected on. -/
theorem Cursor.lookAhead_below (hs : scope.schema.WellNamed) (hr : scope.schema.Redeclares)
    {c below : Cursor} (hc : c.scope = scope) {t : TypeDef}
    (ht : scope.schema.type? t.name = some t) (hv : v.Conforms scope.schema t) {head : FieldHead}
    (hfield : Rules.hasField t head.name.value = true) (hn : head.name.value ≠ lit "__typename")
    {g : FieldDef} (hg : v.type.field? head.name.value = some g) {body : Option SelectionSet}
    (hbelow : c.atField ⟨head, g⟩ body = .ok below) {p : LookAhead.Place} (hp : p.parent = some t)
    {children : List LookAhead}
    (hchildren : LookAhead.ofSelectionSet scope
      ⟨Visit.typeBelow scope.schema p.parent head.name.value, none⟩ (body.getD []) = .ok children) :
    ∃ l, below.lookAhead = .ok l ∧ l.children = children ∧ l.signature =
      (LookAhead.ofField scope head (LookAhead.declaration? p head) p.appliesTo
        children).signature := by
  obtain ⟨f, hf, halike, hlookup⟩ := exists_below hs hr hc ht hv hfield hn hg hbelow
  obtain ⟨type, -, rfl⟩ := exists_of_atField hbelow
  have hdeclaration : LookAhead.declaration? p head = some f := by
    rw [LookAhead.declaration?, hp, Option.bind_some, hf]
  rw [Visit.typeBelow, hp, Option.bind_some, hf, Option.bind_some, hlookup] at hchildren
  refine ⟨.ofField scope head (some g) none children, ?_, rfl, ?_⟩
  · simp only [lookAhead, hc, hchildren, bind, Except.bind, pure, Except.pure]
  · have harguments : Keyed.get? (FieldArguments.ofField scope.vars head g.arguments) =
        Keyed.get? (FieldArguments.ofField scope.vars head f.arguments) :=
      FieldArguments.get?_ofField_congr halike.defaults
    simp only [LookAhead.signature, LookAhead.ofField, hdeclaration, Option.bind_some, harguments]

/-- A field that is planned is the one that was seen. -/
theorem LookAhead.aligned_of_ofField (hs : scope.schema.WellNamed) (hr : scope.schema.Redeclares)
    {c : Cursor} (hc : c.scope = scope) {t : TypeDef} (ht : scope.schema.type? t.name = some t)
    (hv : v.Conforms scope.schema t) {head : FieldHead} {body : Option SelectionSet}
    (hfield : Rules.hasField t head.name.value = true) {p : Place} (hp : p.parent = some t)
    {children : List LookAhead}
    (hchildren : ofSelectionSet scope
      ⟨Visit.typeBelow scope.schema p.parent head.name.value, none⟩ (body.getD []) = .ok children)
    {s : Step} (h : Plan.ofField v c head body = .ok s) :
    Aligned scope v.type
      [(⟨head, body⟩, ofField scope head (declaration? p head) p.appliesTo children)]
      s.leaves s.narrowings := by
  have hselects := hc ▸ Plan.selects_of_ofField h
  rcases Plan.exists_of_ofField h with rfl | ⟨hn, g, below, hg, hbelow, rfl⟩
  · obtain ⟨htypename, -⟩ := List.forall₂_cons.mp hselects
    exact ⟨.cons ⟨htypename, fun task he => by cases he⟩ .nil, fun n hn => by cases hn⟩
  · obtain ⟨htask, -⟩ := List.forall₂_cons.mp hselects
    obtain ⟨l, hl, hlchildren, hsignature⟩ :=
      Cursor.lookAhead_below hs hr hc ht hv hfield hn hg hbelow hp hchildren
    refine ⟨.cons ⟨htask, fun task he => ?_⟩ .nil, fun n hn => by cases hn⟩
    obtain rfl := Leaf.field.inj he
    exact ⟨l, hl, hsignature, hlchildren⟩

/-- Whatever is planned on a value that conforms was seen ahead. -/
theorem LookAhead.Produced.aligned (hs : scope.Checked) (hr : scope.schema.Redeclares) {p : Place}
    {xs : SelectionSet} {made : List (RootField × LookAhead)} (h : Produced scope p xs made) :
    ∀ t, p.parent = some t → scope.schema.type? t.name = some t → v.Conforms scope.schema t →
      SelectionSet.Checked scope.schema scope.fragments (some t) xs →
      ∀ depth c, c.scope = scope →
        Aligned scope v.type made (Plan.ofSelections v (Plan.expandUpTo v depth) c xs).leaves
          (Plan.ofSelections v (Plan.expandUpTo v depth) c xs).narrowings := by
  induction h with
  | nil => exact fun t _ _ _ _ depth c _ => .nil []
  | @excluded p x rest made excluded _ ih =>
    intro t hp ht hv hchecked depth c hc
    have hfirst (s : Step) (hx : Plan.ofSelection v (Plan.expandUpTo v depth) c x = .ok (some s)) :
        Aligned scope v.type [] s.leaves s.narrowings := by
      have hincluded := Plan.exclude_of_ofSelection hx
      rw [hc, excluded] at hincluded
      cases hincluded
    have haligned := Aligned.cons hfirst (ih t hp ht hv hchecked.tail depth c hc)
    exact haligned
  | @field p head body rest children made included below _ ih =>
    intro t hp ht hv hchecked depth c hc
    have hfirst (s : Step)
        (hx : Plan.ofSelection v (Plan.expandUpTo v depth) c (.field head body) = .ok (some s)) :=
      aligned_of_ofField hs.named hr hc ht hv hchecked.hasField hp below
        (Plan.ofField_of_ofSelection hx).2
    have haligned := Aligned.cons hfirst (ih t hp ht hv hchecked.tail depth c hc)
    exact haligned
  | @spread p sp f _ _ _ included found _ _ ihinside ih =>
    intro t hp ht hv hchecked depth c hc
    have hrest := ih t hp ht hv hchecked.tail depth c hc
    refine .cons (fun s hx => ?_) hrest
    obtain ⟨f', hput, rfl⟩ := Plan.spreadOn_of_ofSelection hx
    rw [hc] at hput
    obtain rfl : f = f' :=
      Except.ok.inj (found.symm.trans (Scope.spreadOn_iff.mp hput).2.1)
    obtain ⟨hf, hstands⟩ := Scope.stands_of_spreadOn hput
    obtain ⟨inside, hinside, hknown, hconforms⟩ :=
      hv.exists_inside hs.named (hs.conditions f hf) hstands
    cases depth with
    | zero => exact .nil _
    | succ depth =>
      exact ihinside inside ((p.parent_inFragment _).trans hinside) hknown hconforms
        (hinside ▸ hs.fragments f hf) depth c hc
  | @inline p head body _ inner _ included entered _ ihinside ih =>
    intro t hp ht hv hchecked depth c hc
    have hrest := ih t hp ht hv hchecked.tail depth c hc
    refine .cons (fun s hx => ?_) hrest
    obtain ⟨hentered, rfl⟩ := Plan.entersInline_of_ofSelection hx
    rw [hc] at hentered
    obtain ⟨condition, directives, span⟩ := head
    cases condition with
    | none => exact ihinside t hp ht hv hchecked.inside depth (c.atInline none body) hc
    | some condition =>
      have hcondition := hchecked.condition rfl
      obtain ⟨inside, hinside, hknown, hconforms⟩ :=
        hv.exists_inside hs.named hcondition (Scope.stands_of_entersInline hentered rfl)
      have hparent : (p.inFragment (scope.schema.type? condition.value)).parent = some inside :=
        (p.parent_inFragment _).trans hinside
      have hinner := ihinside inside hparent hknown hconforms (hinside ▸ hchecked.inside) depth
        (c.atInline (some condition) body) hc
      refine ⟨hinner.leaves, fun n hn => ?_⟩
      rcases List.mem_cons.mp hn with rfl | hn
      · rw [Cursor.atInline_of_type (hc ▸ hinside)]
        have htyped : SelectionSet.Checked scope.schema scope.fragments (some inside) body :=
          hinside ▸ hchecked.inside
        refine ⟨⟨hc, hknown, fun xs hxs => Option.some.inj hxs ▸ htyped⟩, fun xs hxs => ?_⟩
        obtain rfl := Option.some.inj hxs
        exact ⟨_, inner, hparent, entered, .refl _⟩
      · exact hinner.narrowings n hn

end Nested

/-- The cursors that values are resolved through where a resolver is given a cursor: that one, those
of list items, and those of fragments that change the type of a value. -/
inductive Cursor.Through (c : Cursor) : Cursor → Prop where
  | here : Through c c
  | item {c' : Cursor} (h : Through c c') (i : Nat) : Through c (c'.atIndex i)
  | narrowed {c' : Cursor} {selections : SelectionSet} {v : Subject} {n : Narrowing}
      (h : Through c c') (selected : c'.selections = some selections)
      (conforms : v.Conforms c'.scope.schema c'.currentType.innermost)
      (asked : n ∈ (Plan.ofSelectionSet v c' selections).narrowings) : Through c n.cursor

section Nested

variable {scope : Scope} {v : Subject} {made : List (RootField × LookAhead)} {c : Cursor}

theorem Cursor.WasSeen.aligned (hs : scope.Checked) (hr : scope.schema.Redeclares)
    (h : c.WasSeen scope made) {xs : SelectionSet} (hxs : c.selections = some xs)
    (hv : v.Conforms scope.schema c.currentType.innermost) :
    LookAhead.Aligned scope v.type made (Plan.ofSelectionSet v c xs).leaves
      (Plan.ofSelectionSet v c xs).narrowings := by
  obtain ⟨place, inner, hplace, hinner, hsub⟩ := h.seen xs hxs
  have haligned := hinner.aligned hs hr _ hplace h.typed.known hv (h.typed.selections xs hxs)
    c.scope.fragments.length c h.typed.inScope
  obtain ⟨seen, hleaves, hseen⟩ := List.sublistForall₂_iff.mp haligned.leaves
  exact ⟨List.sublistForall₂_iff.mpr ⟨seen, hleaves, hseen.trans hsub⟩,
    fun n hn => (haligned.narrowings n hn).mono hsub⟩

theorem Cursor.Through.wasSeen (hs : scope.Checked) (hr : scope.schema.Redeclares) {c' : Cursor}
    (h : c.Through c') (hc : c.WasSeen scope made) : c'.WasSeen scope made := by
  induction h with
  | here => exact hc
  | @item c' _ i ih =>
    refine ⟨ih.typed.atIndex i, fun xs hxs => ?_⟩
    rw [c'.innermost_atIndex i]
    exact ih.seen xs hxs
  | narrowed _ selected conforms asked ih =>
    have hconforms := ih.typed.inScope ▸ conforms
    exact (ih.aligned hs hr selected hconforms).narrowings _ asked

variable {σ : Type}

/-- Runs a plan with the resolvers of a value. -/
def Plan.resolveWith (h : Subject.Handlers σ) (concurrent : Bool) (plan : Plan) :
    Resolve σ Value :=
  Run.toResolve do return (← (plan.tasks h concurrent).run concurrent).toValue

theorem Node.resolve_of_type {typeName objectName : Text} {t : TypeDef} {selections : SelectionSet}
    (hselections : c.selections = some selections) (ht : c.scope.schema.type? typeName = some t)
    (field : Text → FieldArguments → Cursor → Action σ) (into : Text → Override σ) :
    (Node.mk typeName objectName field into .none).resolve c =
      (Plan.ofSelectionSet ⟨t, objectName⟩ c selections).resolveWith
        (Node.mk typeName objectName field into .none).handlers c.isConcurrent := by
  have hhandlers : c.scope.schema.type?
      (Node.mk typeName objectName field into .none).handlers.typeName = some t := ht
  rw [resolve_of_plain, hselections]
  exact congrArg Run.toResolve (Cursor.resolveSelections_of_type hhandlers selections)

/-- Where objects declare the fields of their interfaces as these do and values conform, look-ahead
is told again by the resolvers below. What a resolver sees ahead is seen for the selections below
its field, one by one; and every field that comes to be resolved on a value that is resolved through
its cursor is, in order, one of those selections, and its resolver sees the name, the alias, the
arguments and all that is below it as they were seen then. -/
theorem Cursor.lookAhead_nested {s : Schema} {doc : Document} {op : Operation} {settings : Settings}
    {root : TypeDef} {selections : SelectionSet} {l : LookAhead} (hs : s.Built)
    (hr : s.Redeclares) (hvalid : Validator.isValid Rules.builtin s doc = true)
    (hop : op ∈ doc.operations) (hroot : s.root? op.type = some root)
    (hc : (op.cursor (op.scope s doc settings) root).WellReached c)
    (hselections : c.selections = some selections) (hl : c.lookAhead = .ok l) :
    ∃ made, LookAhead.Produced c.scope ⟨some c.currentType.innermost, none⟩ selections made ∧
      made.map (·.2) = l.children ∧ ∀ c', c.Through c' → ∀ xs, c'.selections = some xs →
        ∀ v : Subject, v.Conforms s c'.currentType.innermost →
          (∀ (field : Text → FieldArguments → Cursor → Action σ) (into : Text → Override σ),
            (Node.mk v.type.name v.objectName field into .none).resolve c' =
              (Plan.ofSelectionSet v c' xs).resolveWith
                (Node.mk v.type.name v.objectName field into .none).handlers c'.isConcurrent) ∧
          List.SublistForall₂ (Leaf.SeenAgain c.scope.vars v.type)
            (Plan.ofSelectionSet v c' xs).leaves made := by
  have hdoc := Document.checked_of_isValid hvalid
  have hscope : (op.scope s doc settings).Checked :=
    ⟨hs.wellNamed, hdoc.conditions, hdoc.fragments⟩
  have htyped := hc.isTyped hscope hr (Operation.isTyped_cursor hs.wellNamed hdoc hop hroot)
  generalize hscopes : op.scope s doc settings = scope at hscope htyped
  obtain rfl : scope.schema = s := hscopes ▸ rfl
  have hin := htyped.inScope
  subst hin
  have hchildren := Cursor.children_of_lookAhead hl
  rw [hselections] at hchildren
  obtain ⟨made, hmade, hmap⟩ := LookAhead.exists_produced hchildren
  have hseen : c.WasSeen c.scope made := by
    refine ⟨htyped, fun xs hxs => ?_⟩
    obtain rfl : selections = xs := Option.some.inj (hselections.symm.trans hxs)
    exact ⟨_, made, rfl, hmade, .refl _⟩
  refine ⟨made, hmade, hmap, fun c' hthrough xs hxs v hv => ?_⟩
  have hseen' := hthrough.wasSeen hscope hr hseen
  refine ⟨Node.resolve_of_type hxs ?_, (hseen'.aligned hscope hr hxs hv).leaves⟩
  rw [hseen'.typed.inScope]
  exact hv.known

end Nested

namespace Observatory

def style (number : Int32) : ArgumentDef :=
  ⟨lit "style", none, .named (lit "Int") false, some (.scalar (.int number))⟩

def name (number : Int32) : FieldDef :=
  ⟨lit "name", none, some [style number], .named (lit "String") false, .current⟩

def moon : FieldDef := ⟨lit "moon", none, none, .named (lit "Body") false, .current⟩

def bodyField : FieldDef := ⟨lit "body", none, none, .named (lit "Body") false, .current⟩

/-- A planet is a body. A comet is not, and its name is written in another style. -/
def registry : Registry :=
  [.object ⟨lit "Query", none, [bodyField], []⟩,
    .interface ⟨lit "Body", none, [name 1, moon], []⟩,
    .object ⟨lit "Planet", none, [name 1, moon], [lit "Body"]⟩,
    .object ⟨lit "Comet", none, [name 2], []⟩].foldl Registry.define .initial

def schema : Schema :=
  match Schema.build registry (lit "Query") none none with
  | .ok s => s
  | .error _ => ⟨[], [], none, none, [], none⟩

/-! The types as they stand in the schema. -/

def query : ObjectDef := ⟨lit "Query", none, [bodyField, Schema.typenameField], []⟩

def body : ObjectDef := ⟨lit "Body", none, [name 1, moon, Schema.typenameField], []⟩

def planet : ObjectDef :=
  ⟨lit "Planet", none, [name 1, moon, Schema.typenameField], [lit "Body"]⟩

def comet : ObjectDef := ⟨lit "Comet", none, [name 2, Schema.typenameField], []⟩

theorem built : schema.Built := by
  have hr : registry.Built := .define (.define (.define (.define .initial _) _) _) _
  have hs : Schema.build registry (lit "Query") none none = .ok schema := rfl
  exact .build hr hs

theorem planet_type : schema.type? (lit "Planet") = some (.object planet) := rfl

theorem body_type : schema.type? (lit "Body") = some (.interface body) := rfl

theorem redeclares : schema.Redeclares := by
  have hobjects : schema.objects = [query, planet, comet] := rfl
  refine Schema.redeclares_of_objects ?_
  rw [hobjects]
  intro d hd p hp i hi f hf
  simp only [List.mem_cons, List.not_mem_nil, or_false] at hd
  rcases hd with rfl | rfl | rfl
  · cases hp
  · obtain rfl := List.mem_singleton.mp hp
    obtain rfl : body = i := TypeDef.interface.inj (Option.some.inj (body_type.symm.trans hi))
    rcases hf with _ | ⟨_, _ | ⟨_, _ | ⟨_, hf⟩⟩⟩
    · rfl
    · rfl
    · rfl
    · cases hf
  · cases hp

theorem isNamedSubtype_planet : schema.isNamedSubtype (lit "Planet") (lit "Body") = true := by
  have hlisted : TypeDef.object planet ∈ schema.typeList :=
    List.mem_mergeSort.mpr (List.mem_map.mpr ⟨_, Keyed.mem_of_get? planet_type, rfl⟩)
  have hpossible : TypeDef.object planet ∈ schema.possible (.interface body) :=
    List.mem_filter.mpr ⟨hlisted, rfl⟩
  exact Schema.isNamedSubtype_of_isPossible planet_type body_type
    (List.any_eq_true.mpr ⟨_, hpossible, beq_self_eq_true _⟩)

theorem conforms_planet :
    Subject.Conforms schema (.interface body) ⟨.object planet, lit "Planet"⟩ :=
  ⟨isNamedSubtype_planet, planet_type, schema.isNamedSubtype_self _⟩

/-! A body is asked for, and something is selected on it. -/

def operation (selections : SelectionSet) : Operation :=
  ⟨.query, none, none, none, [.ofName (lit "body") (some selections)], .unlocated⟩

def root (selections : SelectionSet) : Cursor :=
  (operation selections).cursor
    ((operation selections).scope schema [.operation (operation selections)] ⟨[], none, false⟩)
    (.object query)

def place (selections : SelectionSet) : Cursor :=
  ⟨(root selections).scope, some selections, .concrete (.interface body),
    (root selections).path.field (lit "body") Span.unlocated.start,
    some ⟨⟨none, .unlocated (lit "body"), none, none, .unlocated⟩, bodyField⟩, false⟩

theorem wellReached_place (selections : SelectionSet) :
    (root selections).WellReached (place selections) := by
  have hconforms : Subject.Conforms schema (.object query) ⟨.object query, lit "Query"⟩ :=
    ⟨schema.isNamedSubtype_self _, rfl, schema.isNamedSubtype_self _⟩
  have hplan : (Plan.ofSelectionSet ⟨.object query, lit "Query"⟩ (root selections)
      [.ofName (lit "body") (some selections)]).cursors = [place selections] := rfl
  exact Cursor.WellReached.start.planned rfl hconforms (hplan ▸ List.mem_cons_self)

/-- The name of the body. -/
def named : SelectionSet := [.ofName (lit "name") none]

theorem isValid_named :
    Validator.isValid Rules.builtin schema [.operation (operation named)] = true := by
  have h : Validator.reports Rules.builtin schema [.operation (operation named)] = [] := by decide
  simp [Validator.isValid, Validator.validate, h]

/-- A comet in the place of a body has its name resolved in a style that nothing told before. -/
theorem comet_unforeseen : schema.Built ∧ schema.Redeclares ∧
    Validator.isValid Rules.builtin schema [.operation (operation named)] = true ∧
    (root named).WellReached (place named) ∧
    schema.type? (lit "Comet") = some (.object comet) ∧
    (∀ answer : Text → FieldArguments → Cursor → Action Unit,
      (Node.plain (lit "Comet") answer).resolve (place named) =
        (Plan.ofSelectionSet ⟨.object comet, lit "Comet"⟩ (place named) named).resolveOn
          (lit "Comet") answer false) ∧
    ∃ l child task nested, (place named).lookAhead = .ok l ∧ l.children = [child] ∧
      (Plan.ofSelectionSet ⟨.object comet, lit "Comet"⟩ (place named) named).leaves =
        [.field task] ∧ task.cursor.lookAhead = .ok nested ∧
      Keyed.get? child.arguments (lit "style") = some (.scalar (.int 1)) ∧
      Keyed.get? nested.arguments (lit "style") = some (.scalar (.int 2)) :=
  ⟨built, redeclares, isValid_named, wellReached_place named, rfl,
    fun answer => Node.resolve_plain rfl rfl answer, _, _, _, _, rfl, rfl, rfl, rfl, rfl, rfl⟩

/-- The name of the moon, and the name of the body itself if it is a planet. -/
def told : SelectionSet :=
  [.ofName (lit "moon") (some named), .inFragment (some (lit "Planet")) named]

theorem isValid_told :
    Validator.isValid Rules.builtin schema [.operation (operation told)] = true := by
  have h : Validator.reports Rules.builtin schema [.operation (operation told)] = [] := by decide
  simp [Validator.isValid, Validator.validate, h]

/-- For a planet the resolvers of both fields see what the resolver of the body saw. -/
theorem planet_foreseen : schema.Built ∧ schema.Redeclares ∧
    Validator.isValid Rules.builtin schema [.operation (operation told)] = true ∧
    (root told).WellReached (place told) ∧ ∃ l, (place told).lookAhead = .ok l ∧
    ∃ made, LookAhead.Produced (place told).scope ⟨some (.interface body), none⟩ told made ∧
      made.map (·.2) = l.children ∧
      (∀ (answer : Text → FieldArguments → Cursor → Action Unit) (into : Text → Override Unit),
        (Node.mk (lit "Planet") (lit "Planet") answer into .none).resolve
            ((place told).atIndex 0) =
          (Plan.ofSelectionSet ⟨.object planet, lit "Planet"⟩ ((place told).atIndex 0)
            told).resolveWith
              (Node.mk (lit "Planet") (lit "Planet") answer into .none).handlers false) ∧
      List.SublistForall₂ (Leaf.SeenAgain [] (.object planet))
        (Plan.ofSelectionSet ⟨.object planet, lit "Planet"⟩ ((place told).atIndex 0) told).leaves
        made ∧
      (Plan.ofSelectionSet ⟨.object planet, lit "Planet"⟩ ((place told).atIndex 0)
        told).leaves.length = 2 := by
  have hoperation : operation told ∈ Document.operations [.operation (operation told)] := by
    simp [Document.operations, Definition.operation?]
  refine ⟨built, redeclares, isValid_told, wellReached_place told, _, rfl, ?_⟩
  obtain ⟨made, hmade, hchildren, hnested⟩ := Cursor.lookAhead_nested built redeclares
    isValid_told hoperation rfl (wellReached_place told) rfl rfl
  obtain ⟨hresolve, hseen⟩ := hnested _ (.item .here 0) told rfl _ conforms_planet
  exact ⟨made, hmade, hchildren, hresolve, hseen, rfl⟩

end Observatory

end GraphQL
