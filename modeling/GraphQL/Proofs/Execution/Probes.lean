import GraphQL.Proofs.Execution.Complete
import GraphQL.Proofs.Execution.Overlooked
import GraphQL.Proofs.Execution.Settled

/-! Requests that are broken off over their shape. Where a valid document overlooks something, there
are resolvers whose objects fit the schema and that break nothing off of their own accord, and yet
the request never comes to a response. -/

namespace GraphQL

theorem Plan.ofSelectionSet_eq {scope : Scope} (hscope : scope.IsReady) {subject : Subject}
    {c : Cursor} (hc : c.scope = scope) (xs : SelectionSet) :
    ofSelectionSet subject c xs =
      ofSelections subject (fun c f => ofSelectionSet subject c f.selections) c xs :=
  (Plan.ends hscope.bound).unfolds c xs hc

/-- Where directives do not take a field out, its step is planned. -/
theorem Plan.ofField_of_included {subject : Subject} {expand : Expand} {c : Cursor}
    {head : FieldHead} {body : Option SelectionSet} {step : Option Step}
    (included : Directives.exclude c.scope.vars (head.directives.getD []) = .ok false)
    (h : ofSelection subject expand c (.field head body) = .ok step) :
    ∃ s, step = some s ∧ ofField subject c head body = .ok s := by
  unfold ofSelection at h
  rw [included] at h
  cases hs : ofField subject c head body with
  | error v => simp [hs, bind, Except.bind] at h
  | ok s =>
    rw [hs] at h
    exact ⟨s, (Except.ok.inj h).symm, rfl⟩

variable {σ : Type} {scope : Scope} {d : ObjectDef} {o expected : Text}

abbrev Violation.IsShape (v : Violation) : Prop := v.isShapeFault = true

/-- A resolver that comes to a value unless the request is broken off over its shape. -/
abbrev Resolve.Answers (x : Resolve σ Value) : Prop :=
  Settles (fun v => v.isNull = false) (Raise.IsViolation Violation.IsShape) x

/-- A resolver that never comes to anything, as the request is broken off over its shape. -/
abbrev Resolve.BreaksOff (x : Resolve σ Value) : Prop :=
  Aborts (Raise.IsViolation Violation.IsShape) x

/-- A resolver at a cursor that fits the expected type and breaks nothing off of its own accord. -/
structure Action.IsProbe (action : Action σ) (scope : Scope) (expected : Text) (c : Cursor) :
    Prop where
  fits : action.Fits scope.schema asksCondition c expected
  only : action.BreaksOnly Violation.SparesShape
  answers : c.IsReady scope expected → (action.run c).Answers

/-- The same of a value. -/
structure Node.IsProbe (node : Node σ) (scope : Scope) (expected : Text) : Prop where
  fits : node.Fits scope.schema asksCondition expected
  only : node.BreaksOnly Violation.SparesShape
  answers : ∀ c, c.IsReady scope expected → (node.resolve c).Answers

theorem Action.isProbe_value (scope : Scope) (expected : Text) (c : Cursor) (t : Text) :
    (Action.value (.ofText t) : Action σ).IsProbe scope expected c :=
  ⟨trivial, trivial, fun _ => .pure rfl⟩

theorem Node.IsProbe.ofNode {node : Node σ} (h : node.IsProbe scope expected) (c : Cursor) :
    (Action.ofNode (some node)).IsProbe scope expected c :=
  ⟨⟨h.fits, fun _ => trivial⟩, ⟨h.only, fun _ => trivial⟩,
    fun hc => (h.answers c hc).bind fun _ hv => .pure hv⟩

/-- Resolvers of an object by which it is found out what a request overlooks. -/
structure Probe (scope : Scope) (d : ObjectDef) (σ : Type) where
  field : Text → FieldArguments → Cursor → Action σ
  into : Text → Override σ
  fields : ∀ name f arguments c, (TypeDef.object d).field? name = some f →
    (field name arguments c).IsProbe scope f.type.innermostName c
  only : ∀ name arguments c, (field name arguments c).BreaksOnly Violation.SparesShape
  intos : ∀ condition run, into condition = .custom run → ∀ c, (run c).IsProbe scope condition c

namespace Probe

/-- The object that has the resolvers. -/
def node (p : Probe scope d σ) (o : Text) : Node σ := .mk o o p.field p.into .none

def handlers (p : Probe scope d σ) (o : Text) : Subject.Handlers σ :=
  ⟨o, o, fun task => (p.field task.name task.arguments task.cursor).run task.cursor,
    fun condition c => (p.into condition).run? c⟩

/-- Fields that are texts, and an object that is of no other type. -/
def plain (scope : Scope) (d : ObjectDef) (σ : Type) : Probe scope d σ where
  field _ _ _ := .value (.ofText [])
  into _ := .none
  fields _ _ _ _ _ := Action.isProbe_value _ _ _ _
  only _ _ _ := trivial
  intos _ _ h := nomatch h

/-- A field that gives an object. -/
def atField {name : Text} {f : FieldDef} (hf : (TypeDef.object d).field? name = some f)
    {node : Node σ} (hnode : node.IsProbe scope f.type.innermostName) : Probe scope d σ where
  field other _ _ := if other = name then .ofNode (some node) else .value (.ofText [])
  into _ := .none
  fields other g arguments c hg := by
    by_cases hn : other = name
    · subst hn
      obtain rfl : f = g := Option.some.inj (hf.symm.trans hg)
      rw [if_pos rfl]
      exact hnode.ofNode c
    · rw [if_neg hn]
      exact Action.isProbe_value _ _ _ _
  only other arguments c := by
    by_cases hn : other = name
    · rw [if_pos hn]
      exact ⟨hnode.only, fun _ => trivial⟩
    · rw [if_neg hn]
      trivial
  intos _ _ h := nomatch h

/-- An object that is resolved as another one for a fragment. -/
def atCondition (d : ObjectDef) {condition : Text} {node : Node σ}
    (hnode : node.IsProbe scope condition) : Probe scope d σ where
  field _ _ _ := .value (.ofText [])
  into other := if other = condition then .custom fun _ => .ofNode (some node) else .none
  fields _ _ _ _ _ := Action.isProbe_value _ _ _ _
  only _ _ _ := trivial
  intos other run h c := by
    by_cases hn : other = condition
    · subst hn
      rw [if_pos rfl] at h
      obtain rfl := Override.custom.inj h
      exact hnode.ofNode c
    · rw [if_neg hn] at h
      cases h

theorem breaksOff_atField {name : Text} {f : FieldDef}
    (hf : (TypeDef.object d).field? name = some f) {node : Node σ}
    (hnode : node.IsProbe scope f.type.innermostName) (arguments : FieldArguments) {c : Cursor}
    (h : (node.resolve c).BreaksOff) :
    (((atField hf hnode).field name arguments c).run c).BreaksOff := by
  have hfield : (atField hf hnode).field name arguments c = .ofNode (some node) := if_pos rfl
  rw [hfield]
  exact h.bind _

theorem breaksOff_atCondition {condition : Text} {node : Node σ}
    (hnode : node.IsProbe scope condition) {c : Cursor} (h : (node.resolve c).BreaksOff) :
    ∃ x, ((atCondition d hnode).into condition).run? c = some x ∧ x.BreaksOff := by
  have hinto : (atCondition d hnode).into condition = .custom fun _ => .ofNode (some node) :=
    if_pos rfl
  rw [hinto]
  exact ⟨_, rfl, h.bind _⟩

theorem fits_into (p : Probe scope d σ) (condition : Text) :
    (p.into condition).Fits scope.schema asksCondition condition := by
  cases hinto : p.into condition with
  | none => trivial
  | custom run => exact fun c => (p.intos condition run hinto c).fits

theorem breaksOnly_into (p : Probe scope d σ) (condition : Text) :
    (p.into condition).BreaksOnly Violation.SparesShape := by
  cases hinto : p.into condition with
  | none => trivial
  | custom run => exact fun c => (p.intos condition run hinto c).only

theorem answers_into (p : Probe scope d σ) {condition : Text} {c : Cursor}
    (hc : c.IsReady scope condition) {x : Resolve σ Value}
    (hx : (p.into condition).run? c = some x) : x.Answers := by
  cases hinto : p.into condition with
  | none =>
    rw [hinto] at hx
    cases hx
  | custom run =>
    rw [hinto] at hx
    obtain rfl := Option.some.inj hx
    exact (p.intos condition run hinto c).answers hc

/-- The object is resolved to an object unless the request is broken off, and is not if what is
planned on it is broken off. -/
theorem settles_resolve (p : Probe scope d σ) (hscope : scope.IsReady)
    (ho : scope.schema.type? o = some (.object d))
    (hsub : scope.schema.isNamedSubtype o expected = true) {c : Cursor}
    (hc : c.IsReady scope expected) :
    Settles (fun v => v.isNull = false ∧ ∃ xs, c.selections = some xs ∧
        ¬ (Plan.ofSelectionSet ⟨.object d, o⟩ c xs).Breaks (p.handlers o) Violation.IsShape)
      (Raise.IsViolation Violation.IsShape) ((p.node o).resolve c) := by
  obtain ⟨_, -, hsuits⟩ := hc.suits
  unfold node Node.resolve
  cases hsel : c.selections with
  | none => exact .throw rfl
  | some xs =>
    have hplan := Plan.isReady_ofSelectionSet hscope ho hsub hc hsel
    apply Settles.toResolve
    rw [Cursor.resolveSelections_of_type (by rwa [hsuits.inScope])]
    refine (Plan.settles_run (h := p.handlers o) ?_ ?_ _ _ hplan).bind fun outcome ho => ?_
    · intro task ht
      obtain ⟨f, hf, hready⟩ := ht
      exact (p.fields _ f _ _ hf).answers hready
    · intro n x hn hx
      exact (p.answers_into hn hx).mono fun _ _ => trivial
    · obtain ⟨fields, rfl⟩ := Option.isSome_iff_exists.mp ho.1
      exact .pure ⟨rfl, xs, rfl, ho.2⟩

theorem isProbe_node (p : Probe scope d σ) (hscope : scope.IsReady)
    (ho : scope.schema.type? o = some (.object d))
    (hsub : scope.schema.isNamedSubtype o expected = true) :
    (p.node o).IsProbe scope expected where
  fits := ⟨rfl, hsub, ⟨d, ho, fun name f arguments c hf => (p.fields name f arguments c hf).fits⟩,
    p.fits_into, trivial⟩
  only := ⟨p.only, p.breaksOnly_into, trivial⟩
  answers _ hc := (p.settles_resolve hscope ho hsub hc).mono fun _ hv => hv.1

/-- On every object of the type, wherever planning ends, selections come to a step that is broken
off. -/
def Breaks (p : Probe scope d σ) (o : Text) (xs : SelectionSet) : Prop :=
  ∀ c, c.scope = scope → (Plan.ofSelectionSet ⟨.object d, o⟩ c xs).IsReady scope d →
    (Plan.ofSelectionSet ⟨.object d, o⟩ c xs).Breaks (p.handlers o) Violation.IsShape

/-- One of the selections is broken off, at every cursor where its step is planned. -/
theorem breaks_of_mem {p : Probe scope d σ} (hscope : scope.IsReady) {x : Selection}
    {xs : SelectionSet} (hx : x ∈ xs)
    (h : ∀ c step, c.scope = scope →
      Plan.ofSelection ⟨.object d, o⟩
        (fun c f => Plan.ofSelectionSet ⟨.object d, o⟩ c f.selections) c x = .ok step →
      ∃ s, step = some s ∧ (Plan.IsReadyStep scope d s →
        s.Breaks (p.handlers o) Violation.IsShape)) :
    p.Breaks o xs := by
  intro c hc hready
  rw [Plan.ofSelectionSet_eq hscope hc] at hready ⊢
  obtain ⟨step, hstep, hbreaks⟩ := Plan.exists_step_of_mem hx hready
  obtain ⟨s, hs, hb⟩ := h c step hc hstep
  exact (hbreaks s hs).2 (hb (hbreaks s hs).1)

end Probe

section Overlooking

-- By induction on how the object comes to be overlooked: every field and fragment on the way hands on
-- to what is below it, and the last object is resolved without selections.
mutual

/-- Where selections overlook something, some object fits and is always broken off. -/
theorem exists_node_of_overlooks (σ : Type) (hscope : scope.IsReady) {expected : Text}
    {body : Option SelectionSet} :
    scope.Overlooks expected body → ∃ node : Node σ, node.IsProbe scope expected ∧
      ∀ c, c.IsReady scope expected → c.selections = body → (node.resolve c).BreaksOff
  | .bare (o := o) (d := d) ho hsub => by
    let p := Probe.plain scope d σ
    refine ⟨p.node o, p.isProbe_node hscope ho hsub, fun c hc hnone => ?_⟩
    refine (p.settles_resolve hscope ho hsub hc).mono fun v hv => ?_
    obtain ⟨-, xs, hxs, -⟩ := hv
    rw [hnone] at hxs
    cases hxs
  | .inside (o := o) (d := d) ho hsub h => by
    obtain ⟨p, hp⟩ := exists_probe_of_overlooksOn σ hscope h
    refine ⟨p.node o, p.isProbe_node hscope ho hsub, fun c hc hsel => ?_⟩
    refine (p.settles_resolve hscope ho hsub hc).mono fun v hv => ?_
    obtain ⟨-, xs, hxs, hnone⟩ := hv
    rw [hsel] at hxs
    obtain rfl := Option.some.inj hxs
    obtain ⟨_, -, hsuits⟩ := hc.suits
    exact hnone (hp c hsuits.inScope (Plan.isReady_ofSelectionSet hscope ho hsub hc hsel))

theorem exists_probe_of_overlooksOn (σ : Type) (hscope : scope.IsReady) {o : Text} {d : ObjectDef}
    {xs : SelectionSet} :
    scope.OverlooksOn o d xs → ∃ p : Probe scope d σ, p.Breaks o xs
  | @Scope.OverlooksOn.field _ _ _ _ head body f mem included data declared h => by
    obtain ⟨node, hnode, haborts⟩ := exists_node_of_overlooks σ hscope h
    refine ⟨.atField declared hnode, Probe.breaks_of_mem hscope mem fun c step hc hstep => ?_⟩
    obtain ⟨s, rfl, hs⟩ := Plan.ofField_of_included (by rwa [hc]) hstep
    rcases Plan.ofField_cases_of_ok hs with ⟨hname, -⟩ | ⟨g, below, hg, hat, rfl⟩
    · exact absurd hname data
    · obtain ⟨type, -, hbelow⟩ := Cursor.exists_of_atField hat
      have hselections : below.selections = body := by rw [hbelow]
      refine ⟨_, rfl, fun hready => ?_⟩
      obtain ⟨g, hg, hready⟩ := hready
      obtain rfl : f = g := Option.some.inj (declared.symm.trans hg)
      exact Probe.breaksOff_atField declared hnode _ (haborts below hready hselections)
  | .spread mem put h => by
    obtain ⟨p, hp⟩ := exists_probe_of_overlooksOn σ hscope h
    refine ⟨p, Probe.breaks_of_mem hscope mem fun c step hc hstep => ?_⟩
    rw [Plan.ofSelection_spread, hc, put] at hstep
    exact ⟨_, (Except.ok.inj hstep).symm, hp c hc⟩
  | @Scope.OverlooksOn.inline _ _ _ _ body head mem unconditional entered h => by
    obtain ⟨p, hp⟩ := exists_probe_of_overlooksOn σ hscope h
    refine ⟨p, Probe.breaks_of_mem hscope mem fun c step hc hstep => ?_⟩
    have hinner : (c.atInline head.condition body).scope = scope := hc
    rw [Plan.ofSelection_inline, hc, entered, ← Plan.ofSelectionSet_eq hscope hinner] at hstep
    refine ⟨_, (Except.ok.inj hstep).symm, ?_⟩
    unfold Step.ofInline
    rw [unconditional]
    exact hp _ hc
  | @Scope.OverlooksOn.narrow _ _ _ _ body head condition mem conditional entered h => by
    obtain ⟨node, hnode, haborts⟩ := exists_node_of_overlooks σ hscope h
    -- the fragment is resolved on another object, whatever this one gives inside
    refine ⟨.atCondition d hnode, Probe.breaks_of_mem hscope mem fun c step hc hstep => ?_⟩
    rw [Plan.ofSelection_inline, hc, entered] at hstep
    refine ⟨_, (Except.ok.inj hstep).symm, ?_⟩
    unfold Step.ofInline
    rw [conditional]
    exact fun hready => Probe.breaksOff_atCondition hnode (haborts _ hready.1 rfl)

end

end Overlooking

end GraphQL
