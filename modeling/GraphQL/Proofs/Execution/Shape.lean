import GraphQL.Proofs.Execution.Probes
import GraphQL.Proofs.Execution.Requests

/-! The shape of requests. A valid request is broken off over its shape exactly where its schema has
no root for the operation or the operation overlooks something: in the first case whatever the
resolvers do, in the second one for some that fit the schema. -/

namespace GraphQL

variable {σ α β : Type}

section Opening

variable {scope : Scope} {d : ObjectDef} {o : Text}

namespace Probe

/-- The subscription root whose streams are opened by the resolvers, and give no events. -/
def subscriptionRoot (p : Probe scope d σ) (o : Text) : SubscriptionRoot σ :=
  ⟨o, o, fun name arguments c => ⟨p.field name arguments c, fun _ => none⟩⟩

/-- A field tells the type of the root, or is one that can be opened. -/
def Opens (p : Probe scope d σ) (f : RootField) : Prop :=
  f.head.name.value = lit "__typename" ∨ ∃ g arguments below,
    (TypeDef.object d).field? f.head.name.value = some g ∧
    below.IsReady scope g.type.innermostName ∧ below.selections = f.selections ∧
    ¬ ((p.field f.head.name.value arguments below).run below).BreaksOff

theorem settles_openField (p : Probe scope d σ) (hs : scope.Sound) {c : Cursor}
    (hc : c.scope = scope) {f : RootField} (hf : f.IsSound scope d)
    (hd : ∀ body, f.selections = some body → Selection.AreDecided scope.vars body) :
    Settles (fun _ => p.Opens f) Violation.IsShape
      ((p.subscriptionRoot o).openField c (.object d) f) := by
  unfold SubscriptionRoot.openField
  by_cases hn : f.head.name.value = lit "__typename"
  · simp only [hn, beq_self_eq_true, if_true]
    exact .pure (.inl hn)
  · rcases hf with hf | ⟨declaration, hdecl, hbelow⟩
    · exact absurd hf hn
    obtain ⟨below, hat, hbelow⟩ := hbelow c hc
    obtain ⟨type, -, hcursor⟩ := Cursor.exists_of_atField hat
    have hselections : below.selections = f.selections := by rw [hcursor]
    obtain ⟨g, hg, hready⟩ := hbelow.isReady hs fun xs hxs => hd xs (hselections ▸ hxs)
    let arguments := FieldArguments.ofField c.scope.vars f.head declaration.arguments
    have hanswers := (p.fields f.head.name.value g arguments below hg).answers hready
    simp only [beq_false_of_ne hn, Bool.false_eq_true, if_false, hdecl, hat]
    refine (hanswers.not_aborts.captured _ _).bind fun result hresult => ?_
    obtain ⟨v, rfl, -, hnone⟩ := hresult
    exact .pure (.inr ⟨g, arguments, below, hg, hready, hselections, hnone⟩)

/-- Where a field of the root overlooks something, some root never opens the streams. -/
theorem exists_of_overlooks (σ : Type) (hscope : scope.IsReady) {f : RootField}
    (hover : f.Overlooks scope d) : ∃ p : Probe scope d σ, ¬ p.Opens f := by
  obtain ⟨hn, declaration, hdecl, hbelow⟩ := hover
  obtain ⟨node, hnode, haborts⟩ := exists_node_of_overlooks σ hscope hbelow
  refine ⟨.atField hdecl hnode, fun hopens => ?_⟩
  rcases hopens with htypename | ⟨g, arguments, below, hg, hready, hselections, hnone⟩
  · exact hn htypename
  · obtain rfl : declaration = g := Option.some.inj (hdecl.symm.trans hg)
    exact hnone (breaksOff_atField hdecl hnode arguments (haborts below hready hselections))

theorem aborts_openStreams {p : Probe scope d σ} (hscope : scope.IsReady)
    (ho : scope.schema.type? o = some (.object d)) {c : Cursor} (hc : c.scope = scope)
    {xs : SelectionSet}
    (hchecked : SelectionSet.Checked scope.schema scope.fragments (scope.schema.type? o) xs)
    (hd : Selection.AreDecided scope.vars xs) {fields : List RootField}
    (hfields : RootField.ofSelectionSet scope o xs = .ok fields) {f : RootField} (hf : f ∈ fields)
    (hnone : ¬ p.Opens f) :
    Aborts Violation.IsShape ((p.subscriptionRoot o).openStreams c (.object d) xs) := by
  have hs := hscope.sound
  obtain ⟨-, hsound⟩ := RootField.collects_ofSelections hs ho
    (RootField.collects_expandUpTo hs ho scope.fragments.length) xs o (by simp [ho]) (by simp)
    hchecked
  have hdecided := RootField.areDecided_ofSelectionSet (o := o) hscope hd fields hfields
  have hopen : ∀ g ∈ fields, Settles (fun _ => p.Opens g) Violation.IsShape
      ((p.subscriptionRoot o).openField c (.object d) g) :=
    fun g hg => p.settles_openField hs hc (hsound fields hfields g hg) (hdecided g hg)
  have haborts : Aborts Violation.IsShape ((p.subscriptionRoot o).openField c (.object d) f) :=
    (hopen f hf).mono fun _ h => hnone h
  unfold SubscriptionRoot.openStreams
  rw [hc]
  refine Settles.bind (Settles.ofExcept hfields) fun _ h => ?_
  subst h
  refine (Settles.mapM fun g hg => (hopen g hg).mono fun _ _ => trivial).bind fun _ h => ?_
  exact (h f hf haborts).elim

end Probe

end Opening

/-- A value whose fields are texts. -/
def Node.blank (name : Text) : Node σ :=
  .mk name name (fun _ _ _ => .value (.ofText [])) (fun _ => .none) .none

/-- The directives of an operation and of the fragments of its document have the truth values that
they need. -/
structure Operation.IsDecided (op : Operation) (doc : Document) (vars : Variables) : Prop where
  selections : Selection.AreDecided (op.withDefaults vars) op.selections
  fragments : ∀ f ∈ doc.fragments, Selection.AreDecided (op.withDefaults vars) f.selections

namespace Service

/-- There is a value to start from for every root of the schema. -/
structure HasRoots (service : Service σ) : Prop where
  query : service.query.isSome
  mutation : service.schema.mutationName.isSome → service.mutation.isSome
  subscription : service.schema.subscriptionName.isSome → service.subscription.isSome

/-- Resolvers for every root whose objects fit the schema and that do not break requests off over
their shape of their own accord. -/
structure IsWellBehaved (service : Service σ) : Prop where
  roots : service.HasRoots
  fits : service.Fits asksCondition
  only : service.BreaksOnly Violation.SparesShape

/-- A service whose roots have texts as fields. -/
def blank (schema : Schema) : Service σ :=
  ⟨schema, some (.blank schema.queryName), schema.mutationName.map .blank,
    schema.subscriptionName.map fun name =>
      ⟨name, name, fun _ _ _ => ⟨.value (.ofText []), fun _ => none⟩⟩⟩

variable {schema : Schema} {service : Service σ} {op : Operation} {doc : Document}
  {settings : Settings}

theorem isWellBehaved_blank (hs : schema.Built) : (blank schema : Service σ).IsWellBehaved := by
  have hfits (kind : OperationType) (name : Text) (h : schema.rootName? kind = some name) :
      (Node.blank name : Node σ).Fits schema asksCondition name := by
    obtain ⟨d, hd⟩ := hs.wellNamed.roots kind name h
    exact ⟨rfl, by simp, ⟨d, hd, fun _ _ _ _ _ => trivial⟩, fun _ => trivial, trivial⟩
  have honly (name : Text) : (Node.blank name : Node σ).BreaksOnly Violation.SparesShape :=
    ⟨fun _ _ _ => trivial, fun _ => trivial, trivial⟩
  refine ⟨⟨rfl, by simp [blank], by simp [blank]⟩, ⟨?_, ?_, ?_⟩, ⟨?_, ?_, ?_⟩⟩
  · intro node h
    obtain rfl := Option.some.inj h
    exact hfits .query _ rfl
  · intro node name h hname
    obtain ⟨name', hname', rfl⟩ := Option.map_eq_some_iff.mp h
    obtain rfl := Option.some.inj (hname'.symm.trans hname)
    exact hfits .mutation _ hname
  · intro root name h hname
    obtain ⟨name', hname', rfl⟩ := Option.map_eq_some_iff.mp h
    obtain rfl := Option.some.inj (hname'.symm.trans hname)
    exact ⟨rfl, rfl, fun _ _ _ _ _ _ _ => trivial⟩
  · intro node h
    obtain rfl := Option.some.inj h
    exact honly _
  · intro node h
    obtain ⟨name, -, rfl⟩ := Option.map_eq_some_iff.mp h
    exact honly _
  · intro root h
    obtain ⟨name, -, rfl⟩ := Option.map_eq_some_iff.mp h
    exact fun _ _ _ => trivial

theorem IsWellBehaved.withQuery (h : service.IsWellBehaved) {node : Node σ}
    (hfits : node.Fits service.schema asksCondition service.schema.queryName)
    (honly : node.BreaksOnly Violation.SparesShape) :
    ({ service with query := some node } : Service σ).IsWellBehaved where
  roots := ⟨rfl, h.roots.mutation, h.roots.subscription⟩
  fits := ⟨fun _ hn => Option.some.inj hn ▸ hfits, h.fits.mutation, h.fits.subscription⟩
  only := ⟨fun _ hn => Option.some.inj hn ▸ honly, h.only.mutation, h.only.subscription⟩

theorem IsWellBehaved.withMutation (h : service.IsWellBehaved) {node : Node σ}
    (hfits : ∀ name, service.schema.mutationName = some name →
      node.Fits service.schema asksCondition name)
    (honly : node.BreaksOnly Violation.SparesShape) :
    ({ service with mutation := some node } : Service σ).IsWellBehaved where
  roots := ⟨h.roots.query, fun _ => rfl, h.roots.subscription⟩
  fits := ⟨h.fits.query, fun _ name hn hname => Option.some.inj hn ▸ hfits name hname,
    h.fits.subscription⟩
  only := ⟨h.only.query, fun _ hn => Option.some.inj hn ▸ honly, h.only.subscription⟩

theorem IsWellBehaved.withSubscription (h : service.IsWellBehaved) {root : SubscriptionRoot σ}
    (hfits : ∀ name, service.schema.subscriptionName = some name →
      root.Fits service.schema asksCondition name)
    (honly : ∀ name arguments c,
      (root.stream name arguments c).opening.BreaksOnly Violation.SparesShape) :
    ({ service with subscription := some root } : Service σ).IsWellBehaved where
  roots := ⟨h.roots.query, h.roots.mutation, fun _ => rfl⟩
  fits := ⟨h.fits.query, h.fits.mutation,
    fun _ name hn hname => Option.some.inj hn ▸ hfits name hname⟩
  only := ⟨h.only.query, h.only.mutation, fun _ hn => Option.some.inj hn ▸ honly⟩

/-- An operation is broken off where its root is. -/
theorem aborts_executeOperation {type : TypeDef} {node : Node σ}
    (hroot : service.root op = .ok (type, node))
    (h : (node.resolve (op.cursor (op.scope service.schema doc settings) type)).BreaksOff) :
    Aborts Violation.IsShape (service.executeOperation doc op settings) := by
  intro session
  have hinto : Aborts Violation.IsShape
      (node.resolveInto (op.cursor (op.scope service.schema doc settings) type)) :=
    (h.captured _ _).bind fun _ ⟨_, _, hnone⟩ => hnone.elim
  obtain ⟨v, hv, hends⟩ := hinto.exists_error ⟨[], session.world⟩
  rw [run_executeOperation hroot]
  dsimp only
  rw [hends]
  exact hv

theorem aborts_subscribeOperation {type : TypeDef} {root : SubscriptionRoot σ}
    (hroot : service.subscriptionRoot op = .ok (type, root))
    (h : Aborts Violation.IsShape (root.openStreams
      (op.cursor (op.scope service.schema doc { settings with concurrent := false }) type) type
      op.selections)) :
    Aborts Violation.IsShape (service.subscribeOperation doc op settings) := by
  unfold subscribeOperation
  rw [hroot]
  refine Settles.bind (Q := (· = (type, root))) (.pure rfl) fun _ hstart => ?_
  subst hstart
  refine (Settles.say _).bind fun _ _ => ?_
  refine (Settles.perform h).bind fun ended hended => ?_
  obtain ⟨result, errors⟩ := ended
  cases result with
  | ok streams => exact hended.elim
  | error v => exact .throw hended

/-- At the root of an operation of a valid document planning finds all that it needs. -/
theorem isReady_cursor (hdoc : doc.Checked schema) (hop : op ∈ doc.operations)
    (hd : op.IsDecided doc settings.vars) {o : Text} {d : ObjectDef}
    (hname : schema.rootName? op.type = some o) (ho : schema.type? o = some (.object d)) :
    (op.cursor (op.scope schema doc settings) (.object d)).IsReady (op.scope schema doc settings)
      o := by
  have hdoc : doc.Checked (blank schema : Service Unit).schema := hdoc
  refine ⟨⟨o, .self _ _, cursor_suits hdoc hop settings hname ho⟩, fun xs hxs => ?_⟩
  rw [op.selections_cursor] at hxs
  exact Option.some.inj hxs ▸ hd.selections

section Overlooking

variable (σ)

theorem exists_isWellBehaved_of_overlooks (hs : schema.Built) (hc : schema.Coherent)
    (hvalid : Validator.isValid Rules.builtin schema doc = true) (hop : op ∈ doc.operations)
    (settings : Settings) (hd : op.IsDecided doc settings.vars)
    (h : op.Overlooks schema doc settings) (hkind : op.type ≠ .subscription) :
    ∃ service : Service σ, service.schema = schema ∧ service.IsWellBehaved ∧
      Aborts Violation.IsShape (service.executeOperation doc op settings) := by
  obtain ⟨o, d, hname, ho, hover⟩ := h
  rw [if_neg hkind] at hover
  have hchecked := Document.checked_of_isValid hvalid
  have hscope := Document.isReady_scope hs hc hvalid op settings hd.fragments
  obtain ⟨node, hnode, haborts⟩ := exists_node_of_overlooks σ hscope hover
  have hblank : (blank schema : Service σ).IsWellBehaved := isWellBehaved_blank hs
  have hready := isReady_cursor hchecked hop hd hname ho
  have hbreaks := haborts _ hready (op.selections_cursor _ _)
  have htype : schema.root? op.type = some (.object d) := by simp [Schema.root?, hname, ho]
  cases hop : op.type with
  | query =>
    rw [hop] at hname htype
    obtain rfl := Option.some.inj hname
    let service : Service σ := { blank schema with query := some node }
    have hroot : service.root op = .ok (.object d, node) := by
      have ho : service.schema.type? service.schema.queryName = some (.object d) := ho
      simp only [root, hop, Schema.requireType, ho]
      rfl
    exact ⟨service, rfl, hblank.withQuery hnode.fits hnode.only,
      aborts_executeOperation hroot hbreaks⟩
  | mutation =>
    rw [hop] at hname htype
    let service : Service σ := { blank schema with mutation := some node }
    have hroot : service.root op = .ok (.object d, node) := by
      have htype : service.schema.root? .mutation = some (.object d) := htype
      simp only [root, hop, htype]
      rfl
    refine ⟨service, rfl, hblank.withMutation (fun name hn => ?_) hnode.only,
      aborts_executeOperation hroot hbreaks⟩
    obtain rfl := Option.some.inj (hname.symm.trans hn)
    exact hnode.fits
  | subscription => exact absurd hop hkind

theorem exists_isWellBehaved_of_overlooks_subscription (hs : schema.Built) (hc : schema.Coherent)
    (hvalid : Validator.isValid Rules.builtin schema doc = true) (hop : op ∈ doc.operations)
    (settings : Settings) (hd : op.IsDecided doc settings.vars)
    (h : op.Overlooks schema doc settings) (hkind : op.type = .subscription) :
    ∃ service : Service σ, service.schema = schema ∧ service.IsWellBehaved ∧
      Aborts Violation.IsShape (service.subscribeOperation doc op settings) := by
  obtain ⟨o, d, hname, ho, hover⟩ := h
  rw [if_pos hkind] at hover
  obtain ⟨fields, hfields, f, hf, hover⟩ := hover
  have hchecked := Document.checked_of_isValid hvalid
  have hscope := Document.isReady_scope hs hc hvalid op { settings with concurrent := false }
    hd.fragments
  obtain ⟨p, hp⟩ := Probe.exists_of_overlooks σ hscope hover
  have hblank : (blank schema : Service σ).IsWellBehaved := isWellBehaved_blank hs
  have hsel := hchecked.operations op hop
  simp only [Schema.root?, hname, Option.bind_some] at hsel
  have haborts := Probe.aborts_openStreams hscope ho (op.scope_cursor _ (.object d)) hsel hd.selections
    hfields hf hp
  let service : Service σ := { blank schema with subscription := some (p.subscriptionRoot o) }
  have htype : service.schema.root? .subscription = some (.object d) := by
    rw [hkind] at hname
    simp [service, blank, Schema.root?, hname, ho]
  have hroot : service.subscriptionRoot op = .ok (.object d, p.subscriptionRoot o) := by
    simp only [subscriptionRoot, hkind, if_true, htype]
    rfl
  refine ⟨service, rfl, hblank.withSubscription (fun name hn => ?_) p.only,
    aborts_subscribeOperation hroot haborts⟩
  rw [hkind] at hname
  obtain rfl := Option.some.inj (hname.symm.trans hn)
  refine ⟨rfl, rfl, fun t name g arguments c ht hg => ?_⟩
  obtain rfl := Option.some.inj (ho.symm.trans ht)
  exact (p.fields name g arguments c hg).fits

end Overlooking

end Service

section Requests

namespace Service

variable {service : Service σ} {source : Text} {options : RequestOptions} {doc : Document}
  {op : Operation}

/-- A request is broken off over its shape, whether it is executed or subscribed to. -/
def EndsOverShape (service : Service σ) (source : Text) (options : RequestOptions)
    (session : Session σ) : Prop :=
  ∃ v, v.IsShape ∧ (((service.execute source options).run.run.run session).1 = .error v ∨
    ((service.subscribe source options).run.run.run session).1 = .error v)

theorem endsOverShape_iff (hdoc : Document.ofText service.schema source = .ok doc)
    (hvalidator : options.validator = some Rules.builtin)
    (hvalid : Validator.isValid Rules.builtin service.schema doc = true)
    (hop : doc.selectOperation options.operationName = .ok op) (session : Session σ) :
    service.EndsOverShape source options session ↔
      ∃ v, v.IsShape ∧
        if op.type = .subscription then
          ((service.subscribeOperation doc op options.settings).run.run session).1 = .error v
        else ((service.executeOperation doc op options.settings).run.run session).1 = .error v := by
  have hmap {γ : Type} (r : Except Violation γ) (v : Violation) :
      r.map (Except.ok (ε := RequestError)) = .error v ↔ r = .error v := by
    cases r <;> simp [Except.map]
  unfold EndsOverShape
  rw [run_execute hdoc hvalidator hvalid hop, run_subscribe hdoc hvalidator hvalid hop]
  split <;> simp [hmap]

/-- An operation of a document is broken off over its shape in every session. -/
def AbortsOperation (service : Service σ) (doc : Document) (op : Operation) (settings : Settings) :
    Prop :=
  if op.type = .subscription then
    Aborts Violation.IsShape (service.subscribeOperation doc op settings)
  else Aborts Violation.IsShape (service.executeOperation doc op settings)

theorem endsOverShape_of_abortsOperation (hdoc : Document.ofText service.schema source = .ok doc)
    (hvalidator : options.validator = some Rules.builtin)
    (hvalid : Validator.isValid Rules.builtin service.schema doc = true)
    (hop : doc.selectOperation options.operationName = .ok op)
    (h : service.AbortsOperation doc op options.settings) (session : Session σ) :
    service.EndsOverShape source options session := by
  apply (endsOverShape_iff hdoc hvalidator hvalid hop session).mpr
  unfold AbortsOperation at h
  split at h
  all_goals
    obtain ⟨v, hv, hends⟩ := h.exists_error session
    exact ⟨v, hv, by simp [*]⟩

/-- A schema without a root for an operation breaks every request for it off. -/
theorem abortsOperation_of_root_missing (hs : service.schema.Built)
    (hroot : service.schema.root? op.type = none) (doc : Document) (settings : Settings) :
    service.AbortsOperation doc op settings := by
  unfold AbortsOperation
  cases hkind : op.type with
  | query =>
    obtain ⟨d, hd⟩ := hs.wellNamed.roots .query _ rfl
    rw [hkind] at hroot
    simp [Schema.root?, Schema.rootName?, hd] at hroot
  | mutation =>
    rw [hkind] at hroot
    have hstart : service.root op = .error .noMutationType := by
      simp only [root, hkind, hroot]
    rw [if_neg (by decide)]
    unfold executeOperation
    rw [hstart]
    exact (Settles.say _).bind fun _ _ => .throw rfl
  | subscription =>
    rw [hkind] at hroot
    have hstart : service.subscriptionRoot op = .error .noSubscriptionType := by
      simp only [subscriptionRoot, hkind, if_true, hroot]
    rw [if_pos rfl]
    unfold subscribeOperation
    rw [hstart]
    have hthrow : Aborts Violation.IsShape
        (Engine.ofExcept (.error .noSubscriptionType) : Engine σ (TypeDef × SubscriptionRoot σ)) :=
      .throw rfl
    exact hthrow.bind _

/-- Only the schema's roots and what an operation overlooks break a valid request off over its
shape: it is never broken off where the operation has its root and overlooks nothing, as long as the
objects of the resolvers fit the schema. Without a root the request never comes to a response or an
error, and where the operation overlooks something it does not with some resolvers that fit. -/
theorem endsOverShape_of_isValid (σ : Type) {schema : Schema} (hs : schema.Built)
    (hc : schema.Coherent) (hdoc : Document.ofText schema source = .ok doc)
    (hvalidator : options.validator = some Rules.builtin)
    (hvalid : Validator.isValid Rules.builtin schema doc = true)
    (hop : doc.selectOperation options.operationName = .ok op)
    (hd : op.IsDecided doc options.settings.vars) :
    ((schema.root? op.type).isSome → ¬ op.Overlooks schema doc options.settings →
      ∀ service : Service σ, service.schema = schema → service.IsWellBehaved →
        ∀ session, ¬ service.EndsOverShape source options session) ∧
    (schema.root? op.type = none →
      ∀ service : Service σ, service.schema = schema →
        ∀ session, service.EndsOverShape source options session) ∧
    (op.Overlooks schema doc options.settings →
      ∃ service : Service σ, service.schema = schema ∧ service.IsWellBehaved ∧
        ∀ session, service.EndsOverShape source options session) := by
  have hmem := Document.mem_of_selectOperation hop
  refine ⟨?_, ?_, ?_⟩
  · rintro hroot hnone service rfl hservice session hends
    obtain ⟨v, hv, hends⟩ := (endsOverShape_iff hdoc hvalidator hvalid hop session).mp hends
    have hspares : v.SparesShape := by
      split at hends
      · have hscope := Document.isReady_scope hs hc hvalid op
          { options.settings with concurrent := false } hd.fragments
        exact raisesShape_subscribeOperation hs hservice.fits hservice.only hroot hscope.bound hnone
          session v hends
      · exact raisesShape_executeOperation hs hservice.fits hservice.only hroot hnone session v
          hends
    exact absurd hv (by simp [hspares])
  · rintro hroot service rfl session
    exact endsOverShape_of_abortsOperation hdoc hvalidator hvalid hop
      (abortsOperation_of_root_missing hs hroot doc options.settings) session
  · intro hover
    obtain ⟨service, rfl, hservice, haborts⟩ : ∃ service : Service σ, service.schema = schema ∧
        service.IsWellBehaved ∧ service.AbortsOperation doc op options.settings := by
      unfold AbortsOperation
      split
      · exact exists_isWellBehaved_of_overlooks_subscription σ hs hc hvalid hmem _ hd hover ‹_›
      · exact exists_isWellBehaved_of_overlooks σ hs hc hvalid hmem _ hd hover ‹_›
    exact ⟨service, rfl, hservice,
      endsOverShape_of_abortsOperation hdoc hvalidator hvalid hop haborts⟩

end Service

end Requests

namespace Ring

def query : ObjectDef :=
  ⟨lit "Query", none, [⟨lit "a", none, none, .named (lit "Int") false, .current⟩,
    ⟨lit "self", none, none, .named (lit "Query") false, .current⟩], []⟩

def registry : Registry := Registry.initial.define (.object query)

def schema : Schema :=
  match Schema.build registry (lit "Query") none none with
  | .ok s => s
  | .error _ => ⟨[], [], none, none, [], none⟩

def options : RequestOptions := ⟨none, ⟨[], none, false⟩, some Rules.builtin⟩

def mutationSource : Text := lit "mutation\x7ba\x7d"

/-- Nothing is selected on an object. -/
def bareSource : Text := lit "\x7bself\x7d"

def nestedSource : Text := lit "\x7bself\x7ba\x7d\x7d"

def parsed (source : Text) : Document :=
  match Document.ofText schema source with
  | .ok doc => doc
  | .error _ => []

theorem built : schema.Built := by
  have hr : registry.Built := .define .initial _
  have hs : Schema.build registry (lit "Query") none none = .ok schema := rfl
  exact .build hr hs

theorem coherent : schema.Coherent := Schema.coherent_of_isCoherentType (by decide)

theorem isValid (doc : Document) (h : Validator.reports Rules.builtin schema doc = []) :
    Validator.isValid Rules.builtin schema doc = true := by
  simp [Validator.isValid, Validator.validate, h]

def root : ObjectDef := { query with fields := Schema.withTypename query.fields }

/-- The only objects are those of the query type. -/
theorem object_eq {o : Text} {d : ObjectDef} (h : schema.type? o = some (.object d)) :
    o = lit "Query" ∧ d = root := by
  have hobjects : schema.types.filter (·.2.isObject) = [(lit "Query", .object root)] := rfl
  have hmem : (o, .object d) ∈ schema.types.filter (·.2.isObject) :=
    List.mem_filter.mpr ⟨Keyed.mem_of_get? h, rfl⟩
  rw [hobjects, List.mem_singleton] at hmem
  simp only [Prod.mk.injEq, TypeDef.object.injEq] at hmem
  exact hmem

theorem exists_of_overlooksOn {scope : Scope} {o : Text} {d : ObjectDef} {head : FieldHead}
    {body : Option SelectionSet} (h : scope.OverlooksOn o d [.field head body]) :
    ∃ f, (TypeDef.object d).field? head.name.value = some f ∧
      scope.Overlooks f.type.innermostName body := by
  cases h with
  | field mem included data declared h =>
    obtain ⟨rfl, rfl⟩ := Selection.field.inj (List.mem_singleton.mp mem)
    exact ⟨_, declared, h⟩
  | spread mem => cases List.mem_singleton.mp mem
  | inline mem => cases List.mem_singleton.mp mem
  | narrow mem => cases List.mem_singleton.mp mem

/-- Where nothing is selected on the object that a field gives, it is overlooked. -/
theorem overlooks {op : Operation} {head : FieldHead} (hsel : op.selections = [.field head none])
    (hkind : op.type = .query) (hself : head.name.value = lit "self")
    (hdirectives : head.directives = none) (doc : Document) (settings : Settings) :
    op.Overlooks schema doc settings := by
  have hsub : schema.isNamedSubtype (lit "Query") (lit "Query") = true := by simp
  refine ⟨lit "Query", root, by rw [hkind]; rfl, rfl, ?_⟩
  rw [if_neg (by simp [hkind]), hsel]
  have hfield : (TypeDef.object root).field? head.name.value =
      some ⟨lit "self", none, none, .named (lit "Query") false, .current⟩ := by
    rw [hself]
    rfl
  have hincluded (vars : Variables) :
      Directives.exclude vars (head.directives.getD []) = .ok false := by
    rw [hdirectives]
    rfl
  have hdata : head.name.value ≠ lit "__typename" := by
    rw [hself]
    decide
  exact .inside rfl hsub
    (.field List.mem_cons_self (hincluded _) hdata hfield (.bare rfl hsub))

/-- Where a number is selected on the object that a field gives, nothing is overlooked. -/
theorem not_overlooks {op : Operation} {head inner : FieldHead}
    (hsel : op.selections = [.field head (some [.field inner none])]) (hkind : op.type = .query)
    (hself : head.name.value = lit "self") (hinner : inner.name.value = lit "a") (doc : Document)
    (settings : Settings) : ¬ op.Overlooks schema doc settings := by
  rintro ⟨o, d, -, -, h⟩
  rw [if_neg (by simp [hkind]), hsel] at h
  cases h with
  | inside object fits h =>
    obtain ⟨rfl, rfl⟩ := object_eq object
    obtain ⟨f, hf, h⟩ := exists_of_overlooksOn h
    rw [hself] at hf
    obtain rfl := Option.some.inj hf
    cases h with
    | inside object' fits' h =>
      obtain ⟨rfl, rfl⟩ := object_eq object'
      obtain ⟨f, hf, h⟩ := exists_of_overlooksOn h
      rw [hinner] at hf
      obtain rfl := Option.some.inj hf
      cases h with
      | bare number fits'' =>
        obtain ⟨rfl, -⟩ := object_eq number
        have hnumber : schema.isNamedSubtype (lit "Query") (lit "Int") = false := by decide
        cases hnumber.symm.trans fits''

/-- A mutation is broken off whatever the resolvers do, an object on which nothing is selected with
some of them, and a number on an object with none. -/
theorem endsOverShape_sources :
    (∀ service : Service Unit, service.schema = schema →
      ∀ session, service.EndsOverShape mutationSource options session) ∧
    (∃ service : Service Unit, service.schema = schema ∧ service.IsWellBehaved ∧
      ∀ session, service.EndsOverShape bareSource options session) ∧
    ∀ service : Service Unit, service.schema = schema → service.IsWellBehaved →
      ∀ session, ¬ service.EndsOverShape nestedSource options session := by
  refine ⟨?_, ?_, ?_⟩
  · have hvalid := isValid (parsed mutationSource) (by decide +kernel)
    have hdoc : Document.ofText schema mutationSource = .ok (parsed mutationSource) := rfl
    obtain ⟨op, hop, hkind, hd⟩ : ∃ op, (parsed mutationSource).selectOperation none = .ok op ∧
        op.type = .mutation ∧ op.IsDecided (parsed mutationSource) [] :=
      ⟨_, rfl, rfl, ⟨⟨false, rfl⟩, trivial⟩, nofun⟩
    have hroot : schema.root? op.type = none := by rw [hkind]; rfl
    exact (Service.endsOverShape_of_isValid Unit built coherent hdoc rfl hvalid hop hd).2.1 hroot
  · have hvalid := isValid (parsed bareSource) (by decide +kernel)
    have hdoc : Document.ofText schema bareSource = .ok (parsed bareSource) := rfl
    obtain ⟨op, hop, hd, hover⟩ : ∃ op, (parsed bareSource).selectOperation none = .ok op ∧
        op.IsDecided (parsed bareSource) [] ∧
        op.Overlooks schema (parsed bareSource) options.settings := by
      exact ⟨_, rfl, ⟨⟨⟨false, rfl⟩, trivial⟩, nofun⟩, overlooks rfl rfl rfl rfl _ _⟩
    exact (Service.endsOverShape_of_isValid Unit built coherent hdoc rfl hvalid hop hd).2.2 hover
  · have hvalid := isValid (parsed nestedSource) (by decide +kernel)
    have hdoc : Document.ofText schema nestedSource = .ok (parsed nestedSource) := rfl
    obtain ⟨op, hop, hroot, hd, hnone⟩ : ∃ op,
        (parsed nestedSource).selectOperation none = .ok op ∧ (schema.root? op.type).isSome ∧
        op.IsDecided (parsed nestedSource) [] ∧
        ¬ op.Overlooks schema (parsed nestedSource) options.settings :=
      ⟨_, rfl, rfl, ⟨⟨⟨⟨false, rfl⟩, ⟨false, rfl⟩, trivial⟩, trivial⟩, nofun⟩,
        not_overlooks rfl rfl rfl rfl _ _⟩
    have hvalidator : options.validator = some Rules.builtin := rfl
    have hends := Service.endsOverShape_of_isValid Unit built coherent hdoc hvalidator hvalid hop hd
    exact hends.1 hroot hnone

end Ring

end GraphQL
