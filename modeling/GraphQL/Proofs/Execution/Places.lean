import GraphQL.Proofs.Execution.Streams
import GraphQL.Proofs.Execution.Traces
import GraphQL.Proofs.Schema.Subtypes

/-! Properties of places that go wherever execution goes. A property of cursors that goes into
inline fragments, to the items of lists and below the fields that types declare holds wherever code
of a value is called, in every run: below the roots of queries and mutations, where the streams of a
subscription are opened, and where their events are resolved. The fields are those that are written
in the operation and in the fragments of its document. -/

namespace GraphQL

variable {σ : Type}

/-- The selections that are written in an operation and in fragments, at all depths. -/
inductive Operation.Contains (op : Operation) (fragments : List Fragment) : Selection → Prop where
  | operation {x : Selection} (mem : x ∈ op.selections) : Contains op fragments x
  | fragment {f : Fragment} {x : Selection} (known : f ∈ fragments) (mem : x ∈ f.selections) :
      Contains op fragments x
  | field {head : FieldHead} {body : SelectionSet} {x : Selection}
      (h : Contains op fragments (.field head (some body))) (mem : x ∈ body) :
      Contains op fragments x
  | inline {head : InlineHead} {body : SelectionSet} {x : Selection}
      (h : Contains op fragments (.inline head body)) (mem : x ∈ body) : Contains op fragments x

/-- A cursor at selections of an operation or of the fragments of its document. -/
structure Cursor.IsWithin (op : Operation) (doc : Document) (c : Cursor) : Prop where
  fragments : c.scope.fragments = doc.fragments
  selections : ∀ x ∈ c.selections.getD [], op.Contains doc.fragments x

/-- The task of resolving a field that is selected at a cursor. -/
def Cursor.fieldTask (c : Cursor) (head : FieldHead) (declaration : FieldDef) (below : Cursor) :
    FieldTask :=
  ⟨head.responseName, head.name.value, .ofField c.scope.vars head declaration.arguments, below,
    declaration.type.isNonNull⟩

/-- A property of cursors that is kept inside inline fragments, at the items of lists and below the
fields that are written and that types of the schema declare, such that the calls made there are of
a kind. -/
structure Cursor.Carries (op : Operation) (doc : Document) (place : Cursor → Prop)
    (call : Call → Prop) : Prop where
  whole : ∀ c, place c → call (.whole c)
  into : ∀ n : Narrowing, place n.cursor → call (.into n)
  atIndex : ∀ c i, place c → place (c.atIndex i)
  atInline : ∀ c condition body, place c → place (c.atInline condition body)
  atField : ∀ c name type head declaration body below, place c →
    op.Contains doc.fragments (.field head body) →
    c.scope.schema.type? name = some type → type.field? head.name.value = some declaration →
    c.atField ⟨head, declaration⟩ body = .ok below →
    call (.field (c.fieldTask head declaration below)) ∧ place below

section Written

variable {op : Operation} {doc : Document} {c : Cursor}

theorem Cursor.IsWithin.atInline (h : c.IsWithin op doc) {head : InlineHead} {body : SelectionSet}
    (hx : op.Contains doc.fragments (.inline head body)) :
    (c.atInline head.condition body).IsWithin op doc :=
  ⟨h.fragments, fun _ hmem => .inline hx hmem⟩

theorem Cursor.IsWithin.atField (h : c.IsWithin op doc) {head : FieldHead}
    {declaration : FieldDef} {body : Option SelectionSet} {below : Cursor}
    (hx : op.Contains doc.fragments (.field head body))
    (hat : c.atField ⟨head, declaration⟩ body = .ok below) : below.IsWithin op doc := by
  obtain ⟨position, -, rfl⟩ := Cursor.exists_of_atField hat
  refine ⟨h.fragments, fun x hmem => ?_⟩
  cases body with
  | none => cases hmem
  | some body => exact .field hx hmem

theorem Operation.isWithin_cursor (schema : Schema) (settings : Settings) (type : TypeDef) :
    (op.cursor (op.scope schema doc settings) type).IsWithin op doc := by
  unfold cursor
  split <;> exact ⟨rfl, fun _ hmem => .operation hmem⟩

/-- The fields of the root are written, directly or in fragments. -/
theorem Scope.Flattens.contains {scope : Scope} (hscope : scope.fragments = doc.fragments)
    {o : Text} {xs : SelectionSet} {fields : List RootField} (h : scope.Flattens o xs fields)
    (hxs : ∀ x ∈ xs, op.Contains doc.fragments x) :
    ∀ f ∈ fields, op.Contains doc.fragments (.field f.head f.selections) := by
  induction h with
  | nil => exact fun _ hf => (List.not_mem_nil hf).elim
  | field _ _ ih =>
    obtain ⟨hx, hrest⟩ := List.forall_mem_cons.mp hxs
    exact List.forall_mem_cons.mpr ⟨hx, ih hrest⟩
  | excluded _ _ ih | spreadAside _ _ ih | inlineAside _ _ ih =>
    exact ih (List.forall_mem_cons.mp hxs).2
  | spread put _ _ ih ihrest =>
    have hknown := Scope.mem_of_requireFragment (Scope.spreadOn_iff.mp put).2.1
    rw [hscope] at hknown
    exact List.forall_mem_append.mpr
      ⟨ih fun _ hmem => .fragment hknown hmem, ihrest (List.forall_mem_cons.mp hxs).2⟩
  | inline _ _ _ ih ihrest =>
    obtain ⟨hx, hrest⟩ := List.forall_mem_cons.mp hxs
    exact List.forall_mem_append.mpr ⟨ih fun _ hmem => .inline hx hmem, ihrest hrest⟩

end Written

section Plans

variable {op : Operation} {doc : Document} {place : Cursor → Prop} {call : Call → Prop}
  {scope : Scope} {subject : Subject} {expand : Plan.Expand} {name : Text}

/-- A place among what is written. -/
abbrev Cursor.At (op : Operation) (doc : Document) (place : Cursor → Prop) (c : Cursor) : Prop :=
  c.IsWithin op doc ∧ place c

/-- Whatever a plan hands on is at such a place, and what is called for it is of the kind. -/
abbrev Plan.Hands (place : Cursor → Prop) (call : Call → Prop) (p : Plan) : Prop :=
  p.All (fun t => call (.field t) ∧ place t.cursor) (fun n => call (.into n) ∧ place n.cursor)
    fun _ => True

namespace Cursor.Carries

mutual

theorem hands_ofSelection (h : Carries op doc place call)
    (htype : scope.schema.type? name = some subject.type)
    (hexpand : ∀ c, ∀ f ∈ doc.fragments, c.scope = scope → c.At op doc place →
      (expand c f).Hands (At op doc place) call) :
    ∀ (x : Selection) (c : Cursor), op.Contains doc.fragments x → c.scope = scope →
      c.At op doc place → ∀ s, Plan.ofSelection subject expand c x = .ok (some s) →
        s.All (fun t => call (.field t) ∧ t.cursor.At op doc place)
          (fun n => call (.into n) ∧ n.cursor.At op doc place) fun _ => True
  | .field head body, c, hx, hscope, hc, s, hs => by
    obtain ⟨-, hfield⟩ := Plan.ofField_of_ofSelection hs
    rcases Plan.ofField_cases_of_ok hfield with ⟨-, rfl⟩ | ⟨declaration, below, hd, hat, rfl⟩
    · trivial
    · obtain ⟨hcall, hbelow⟩ := h.atField c name subject.type head declaration body below hc.2 hx
        (hscope ▸ htype) hd hat
      exact ⟨hcall, hc.1.atField hx hat, hbelow⟩
  | .spread sp, c, hx, hscope, hc, s, hs => by
    obtain ⟨f, hput, rfl⟩ := Plan.spreadOn_of_ofSelection hs
    have hf := Scope.mem_of_requireFragment (Scope.spreadOn_iff.mp hput).2.1
    exact hexpand c f (hc.1.fragments ▸ hf) hscope hc
  | .inline head body, c, hx, hscope, hc, s, hs => by
    obtain ⟨-, rfl⟩ := Plan.entersInline_of_ofSelection hs
    have hinner : (c.atInline head.condition body).At op doc place :=
      ⟨hc.1.atInline hx, h.atInline c head.condition body hc.2⟩
    apply Step.all_ofInline
    · exact hands_ofSelections h htype hexpand body (c.atInline head.condition body)
        (fun _ hmem => .inline hx hmem) hscope hinner
    · exact fun _ _ => ⟨h.into _ hinner.2, hinner⟩

theorem hands_ofSelections (h : Carries op doc place call)
    (htype : scope.schema.type? name = some subject.type)
    (hexpand : ∀ c, ∀ f ∈ doc.fragments, c.scope = scope → c.At op doc place →
      (expand c f).Hands (At op doc place) call) :
    ∀ (xs : List Selection) (c : Cursor), (∀ x ∈ xs, op.Contains doc.fragments x) →
      c.scope = scope → c.At op doc place →
      (Plan.ofSelections subject expand c xs).Hands (At op doc place) call
  | [], _, _, _, _ => trivial
  | x :: rest, c, hxs, hscope, hc => by
    obtain ⟨hx, hrest⟩ := List.forall_mem_cons.mp hxs
    have hothers := hands_ofSelections h htype hexpand rest c hrest hscope hc
    unfold Plan.ofSelections
    rcases hfirst : Plan.ofSelection subject expand c x with v | _ | s
    · trivial
    · exact hothers
    · exact ⟨hands_ofSelection h htype hexpand x c hx hscope hc s hfirst, hothers⟩

end

theorem hands_expandUpTo (h : Carries op doc place call)
    (htype : scope.schema.type? name = some subject.type) (depth : Nat) :
    ∀ c, ∀ f ∈ doc.fragments, c.scope = scope → c.At op doc place →
      (Plan.expandUpTo subject depth c f).Hands (At op doc place) call := by
  induction depth with
  | zero => exact fun _ _ _ _ _ => trivial
  | succ depth ih =>
    exact fun c f hf hscope hc => h.hands_ofSelections htype ih f.selections c
      (fun _ hmem => .fragment hf hmem) hscope hc

theorem law (h : Carries op doc place call) : Cursor.Law (At op doc place) call where
  whole c hc := h.whole c hc.2
  atIndex c i hc := ⟨⟨hc.1.fragments, hc.1.selections⟩, h.atIndex c i hc.2⟩
  plan c selections typeName objectName type hc hselections htype := by
    let subject : Subject := ⟨type, objectName⟩
    have htype' : c.scope.schema.type? typeName = some subject.type :=
      Schema.type?_of_requireType htype
    have hwritten : ∀ x ∈ selections, op.Contains doc.fragments x := by
      simpa [hselections] using hc.1.selections
    have hexpand := h.hands_expandUpTo htype' c.scope.fragments.length
    exact h.hands_ofSelections htype' hexpand selections c hwritten rfl hc

end Cursor.Carries

end Plans

/-- Only calls of a kind are entered. -/
def Mark.EnterOnly (call : Call → Prop) (ms : List Mark) : Prop := ∀ c, enter c ∈ ms → call c

theorem Mark.law_enterOnly (call : Call → Prop) : Mark.Law call (Mark.EnterOnly call) where
  nil c h := (List.not_mem_nil h).elim
  append h h' c hc := (List.mem_append.mp hc).elim (h c) (h' c)
  perm h hp c hc := h c (hp.mem_iff.mp hc)
  during {c ms} hc h c' hc' := by
    rcases List.mem_cons.mp hc' with hc' | hc'
    · obtain rfl := Mark.enter.inj hc'
      exact hc
    · rcases List.mem_append.mp hc' with hc' | hc'
      · exact h c' hc'
      · exact nomatch List.mem_singleton.mp hc'

/-- Whatever is called in a run of a job is of a kind. -/
def Job.EntersOnly (call : Call → Prop) (p : Job σ) : Prop :=
  ∀ s ms r s', Runs p s ms r s' → Mark.EnterOnly call ms

theorem Job.Keeps.entersOnly {call : Call → Prop} {p : Job σ}
    (h : p.Keeps (Mark.EnterOnly call)) : p.EntersOnly call :=
  fun _ ms r _ hruns => h ms r hruns.traces

namespace SubscriptionRoot

variable {op : Operation} {doc : Document} {place : Cursor → Prop} {call : Call → Prop}
  {P : List Mark → Prop} {c : Cursor} {type : TypeDef} {name : Text} {root : SubscriptionRoot σ}

theorem keeps_fieldJob (law : Mark.Law call P) (h : Cursor.Carries op doc place call)
    (hc : c.At op doc place) (htype : c.scope.schema.type? name = some type) {f : RootField}
    (hf : op.Contains doc.fragments (.field f.head f.selections)) :
    (root.fieldJob c type f).Keeps P := by
  unfold fieldJob
  split
  · exact .finish law _
  · cases hd : type.field? f.head.name.value with
    | none => exact .finish law _
    | some declaration =>
      dsimp only
      cases hat : c.atField ⟨f.head, declaration⟩ f.selections with
      | error v => exact .finish law _
      | ok sub =>
        obtain ⟨hcall, hsub⟩ := h.atField c name type f.head declaration f.selections sub hc.2 hf
          htype hd hat
        have hopening := Action.keeps_job law h.law
          (root.stream f.head.name.value
            (.ofField c.scope.vars f.head declaration.arguments) sub).opening sub
          ⟨hc.1.atField hf hat, hsub⟩
        exact ((hopening.during law hcall).captured law _ _).bind law fun _ => .finish law _

theorem contains_of_ofSelectionSet (hc : c.IsWithin op doc) {selections : SelectionSet}
    (hselections : c.selections = some selections) {o : Text} {fields : List RootField}
    (h : RootField.ofSelectionSet c.scope o selections = .ok fields) :
    ∀ f ∈ fields, op.Contains doc.fragments (.field f.head f.selections) := by
  have hflattens := (RootField.flattens_iff_of_ofSelectionSet h fields).mpr rfl
  have hwritten : ∀ x ∈ selections, op.Contains doc.fragments x := by
    simpa [hselections] using hc.selections
  exact hflattens.contains hc.fragments hwritten

theorem keeps_job (law : Mark.Law call P) (h : Cursor.Carries op doc place call)
    (hc : c.At op doc place) (htype : c.scope.schema.type? name = some type)
    {selections : SelectionSet} (hselections : c.selections = some selections) :
    (root.job c type selections).Keeps P := by
  unfold job
  cases hfields : RootField.ofSelectionSet c.scope root.objectName selections with
  | error v => exact .finish law _
  | ok fields =>
    have hwritten := contains_of_ofSelectionSet hc.1 hselections hfields
    clear hfields
    dsimp only
    induction fields with
    | nil => exact .finish law _
    | cons f rest ih =>
      obtain ⟨hf, hrest⟩ := List.forall_mem_cons.mp hwritten
      exact (keeps_fieldJob law h hc htype hf).bind law fun _ => ih hrest

/-- A stream that is opened stands at the root or below its field. -/
theorem OpensInTurn.carried (h : Cursor.Carries op doc place call) (hc : c.At op doc place)
    (htype : c.scope.schema.type? name = some type) {s s' : Effects σ}
    {openings : List (Opening σ)} (hopens : root.OpensInTurn c type s openings s')
    (hwritten : ∀ o ∈ openings,
      op.Contains doc.fragments (.field o.field.head o.field.selections)) :
    ∀ o ∈ openings, ∀ entry ∈ o.streams, entry.2.cursor.At op doc place := by
  induction hopens with
  | nil => exact fun _ ho => (List.not_mem_nil ho).elim
  | cons hopen _ ih =>
    obtain ⟨hf, hrest⟩ := List.forall_mem_cons.mp hwritten
    refine List.forall_mem_cons.mpr ⟨fun entry hentry => ?_, ih hrest⟩
    cases hopen with
    | typename =>
      obtain rfl := List.mem_singleton.mp hentry
      exact hc
    | stream _ declared entered =>
      obtain rfl := List.mem_singleton.mp hentry
      exact ⟨hc.1.atField hf entered,
        (h.atField c name type _ _ _ _ hc.2 hf htype declared entered).2⟩
    | failure => cases hentry

end SubscriptionRoot

/-- All that is called when an operation is executed is of a kind, in whatever order its fields are
resolved: below the root of a query or mutation, where the streams of a subscription are opened, and
where an event of such a stream is resolved as a whole and below. -/
structure Service.CallsOnly (service : Service σ) (call : Call → Prop) (doc : Document)
    (op : Operation) (settings : Settings) : Prop where
  executed : ∀ type node, service.root op = .ok (type, node) →
    (op.job service.schema doc settings type node).EntersOnly call ∧
    ∀ session, ∃ ms r s',
      (op.job service.schema doc settings type node).Runs ⟨[], session.world⟩ ms r s' ∧
      ((service.executeOperation doc op settings).run.run session).1 = r.toOutput s'.errors ∧
      ((service.executeOperation doc op settings).run.run session).2.world = s'.world
  subscribed : ∀ type root, service.subscriptionRoot op = .ok (type, root) →
    (op.subscriptionJob service.schema doc settings type root).EntersOnly call ∧
    ∀ session, ∃ ms r s',
      (op.subscriptionJob service.schema doc settings type root).Runs ⟨[], session.world⟩ ms r s' ∧
      ((service.subscribeOperation doc op settings).run.run session).2.world = s'.world
  events : ∀ session subscription,
    ((service.subscribeOperation doc op settings).run.run session).1 = .ok subscription →
    ∀ entry ∈ subscription.streams, call (.whole entry.2.cursor) ∧
      ∀ event : Action σ, (event.job entry.2.cursor).EntersOnly call

/-- A property that goes on from the roots of an operation tells of all that is called. -/
theorem Cursor.Carries.callsOnly {place : Cursor → Prop} {call : Call → Prop} {op : Operation}
    {doc : Document} (h : Carries op doc place call) {service : Service σ} {settings : Settings}
    (hroots : ∀ concurrent type, service.schema.root? op.type = some type →
      place (op.cursor (op.scope service.schema doc { settings with concurrent }) type)) :
    service.CallsOnly call doc op settings := by
  let c (type : TypeDef) : Cursor :=
    op.cursor (op.scope service.schema doc { settings with concurrent := false }) type
  -- where a subscription starts
  have hstart {type : TypeDef} {root : SubscriptionRoot σ}
      (hroot : service.subscriptionRoot op = .ok (type, root)) :
      (c type).At op doc place ∧ ∃ name, (c type).scope.schema.type? name = some type := by
    obtain ⟨hop, htype, -⟩ := Service.subscriptionRoot_cases hroot
    obtain ⟨name, -, hname⟩ := Option.bind_eq_some_iff.mp htype
    refine ⟨⟨op.isWithin_cursor _ _ _, hroots false type (hop ▸ htype)⟩, name, ?_⟩
    rw [Operation.scope_cursor]
    exact hname
  refine ⟨fun type node hroot => ?_, fun type root hroot => ?_, ?_⟩
  · have hc := hroots settings.concurrent type (Service.root_cases hroot).1
    have hnode := Node.keeps_job (Mark.law_enterOnly call) h.law node _
      ⟨op.isWithin_cursor service.schema settings type, hc⟩
    exact ⟨(hnode.captured (Mark.law_enterOnly call) _ _).entersOnly,
      Service.exists_runs_executeOperation hroot doc settings⟩
  · obtain ⟨hc, name, hname⟩ := hstart hroot
    have hjob := root.keeps_job (Mark.law_enterOnly call) h hc hname (op.selections_cursor _ type)
    exact ⟨hjob.entersOnly, Service.exists_runs_subscribeOperation hroot doc settings⟩
  · intro session subscription hsubscription entry hentry
    obtain ⟨type, root, s', hroot, hopen, -⟩ := Service.exists_of_subscribeOperation hsubscription
    obtain ⟨hc, name, hname⟩ := hstart hroot
    obtain ⟨fields, openings, hfields, hof, hopens, hstreams⟩ :=
      SubscriptionRoot.exists_opensInTurn_of_openStreams hopen
    have hwritten := SubscriptionRoot.contains_of_ofSelectionSet hc.1
      (op.selections_cursor _ type) hfields
    rw [← hof, List.forall_mem_map] at hwritten
    obtain ⟨o, ho, hmem⟩ := List.mem_flatMap.mp (hstreams ▸ hentry)
    have hplace := hopens.carried h hc hname hwritten o ho entry hmem
    exact ⟨h.whole _ hplace.2, fun event =>
      (Action.keeps_job (Mark.law_enterOnly call) h.law event _ hplace).entersOnly⟩

end GraphQL
