import GraphQL.Proofs.Execution.Selected

/-! A valid document never breaks off over a field, a fragment or a type that is not there, as long as
every value that is resolved stands for the type it is resolved as. -/

namespace GraphQL

variable {σ : Type}

section Resolvers

mutual

/-- A value is of an object type that stands for the expected one, and so is every value that its
resolvers hand on, seen from the type of the field. `asks` gives the type that is expected of a value
handed on for a type condition, from the type expected of the value itself. -/
def Node.Fits (s : Schema) (asks : Text → Text → Text) : Node σ → (expected : Text) → Prop
  | .mk typeName objectName field into whole, expected =>
    objectName = typeName ∧ s.isNamedSubtype typeName expected = true ∧
      (∃ d, s.type? typeName = some (.object d) ∧
        ∀ name f arguments c, (TypeDef.object d).field? name = some f →
          (field name arguments c).Fits s asks c f.type.innermostName) ∧
      (∀ condition, (into condition).Fits s asks (asks expected condition)) ∧
      whole.Fits s asks expected

def Override.Fits (s : Schema) (asks : Text → Text → Text) : Override σ → (expected : Text) → Prop
  | .none, _ => True
  | .custom run, expected => ∀ c, (run c).Fits s asks c expected

/-- A resolver hands on values as expected. It breaks off over a missing field, fragment or type only
where looking ahead does. -/
def Action.Fits (s : Schema) (asks : Text → Text → Text) :
    Action σ → Cursor → (expected : Text) → Prop
  | .value _, _, _ => True
  | .fail _, _, _ => True
  | .violate v, c, _ => v.isTypeFault = true → c.lookAhead = .error v
  | .report _ _ next, c, expected => next.Fits s asks c expected
  | .update _ next, c, expected => ∀ world, (next world).Fits s asks c expected
  | .resolve node next, c, expected =>
    fitsIfAny s asks node expected ∧ ∀ v, (next v).Fits s asks c expected
  | .resolveInto node next, c, expected =>
    node.Fits s asks expected ∧ ∀ v, (next v).Fits s asks c expected
  | .resolveList nodes next, c, expected =>
    fitAll s asks nodes expected ∧ ∀ v, (next v).Fits s asks c expected

def fitsIfAny (s : Schema) (asks : Text → Text → Text) :
    Option (Node σ) → (expected : Text) → Prop
  | none, _ => True
  | some node, expected => node.Fits s asks expected

def fitAll (s : Schema) (asks : Text → Text → Text) :
    List (Option (Node σ)) → (expected : Text) → Prop
  | [], _ => True
  | node :: rest, expected => fitsIfAny s asks node expected ∧ fitAll s asks rest expected

end

/-- A subscription root tells its own type, and what it does to open a stream fits the field. -/
structure SubscriptionRoot.Fits (s : Schema) (asks : Text → Text → Text) (root : SubscriptionRoot σ)
    (expected : Text) : Prop where
  typeName : root.typeName = expected
  objectName : root.objectName = expected
  opening : ∀ t name f arguments c, s.type? expected = some t → t.field? name = some f →
    (root.stream name arguments c).opening.Fits s asks c f.type.innermostName

/-- The values that operations start from fit the roots of the schema. -/
structure Service.Fits (service : Service σ) (asks : Text → Text → Text) : Prop where
  query : ∀ node, service.query = some node →
    node.Fits service.schema asks service.schema.queryName
  mutation : ∀ node name, service.mutation = some node → service.schema.mutationName = some name →
    node.Fits service.schema asks name
  subscription : ∀ root name, service.subscription = some root →
    service.schema.subscriptionName = some name → root.Fits service.schema asks name

end Resolvers

section Running

variable {scope : Scope}

/-- What is expected of a value handed on for a type condition: to be of that type. -/
def asksCondition (_expected condition : Text) : Text := condition

theorem raises_violate (hs : scope.Sound) {c : Cursor} {bound : Text} (hc : c.Suits scope bound)
    {v : Violation} (h : v.isTypeFault = true → c.lookAhead = .error v) :
    Raises (Raise.Breaks Violation.IsOther)
      (throw (.violation v) : Resolve σ Value) := by
  refine .throw ?_
  cases hv : v.isTypeFault with
  | false => exact hv
  | true => exact Cursor.errs_lookAhead hs hc v (h hv)

mutual

/-- A value that fits a type resolves selections on any type that it stands for. -/
theorem Node.raises_resolve (hs : scope.Sound) :
    ∀ (node : Node σ) {expected bound : Text} {c : Cursor},
      node.Fits scope.schema asksCondition expected →
      scope.schema.ObjectsWithin expected bound →
      c.Suits scope bound → Raises (Raise.Breaks Violation.IsOther) (node.resolve c)
  | .mk typeName objectName field into whole, expected, bound, c,
      ⟨hname, hsub, ⟨d, hd, hfield⟩, hinto, hwhole⟩, hle, hc => by
    subst hname
    unfold Node.resolve
    cases hw : whole.run? c with
    | some x => exact Override.raises_run hs whole hwhole hle hc x hw
    | none =>
      cases hsel : c.selections with
      | none => exact .throw rfl
      | some selections =>
        -- the object stands for the type that the selections were checked on
        have hplan : (Plan.ofSelectionSet ⟨.object d, objectName⟩ c selections).IsSound scope d :=
          Plan.isSound_ofSelections hs hd (Plan.isSound_expandUpTo hs hd _) selections c bound
            hc.inScope hc.known (hle _ d hd hsub) (hc.selections _ hsel)
        refine .toResolve ?_
        rw [Cursor.resolveSelections_of_type (by rwa [hc.inScope])]
        refine .bind (Plan.raises_run ?_ ?_ (fun _ h => h) _ _ hplan) fun _ => .pure _
        · rintro task ⟨f, below, hf, hbelow, hsuits⟩
          exact Action.raises_run hs _ (hfield _ f _ _ hf)
            (Schema.objectsWithin_of_isNamedSubtype hs.named hs.coherent hbelow) hsuits
        · intro n x hn hx
          exact Override.raises_run hs (into n.condition) (hinto _) (.self _ _) hn x hx

theorem Override.raises_run (hs : scope.Sound) :
    ∀ (whole : Override σ) {expected bound : Text} {c : Cursor},
      whole.Fits scope.schema asksCondition expected →
      scope.schema.ObjectsWithin expected bound →
      c.Suits scope bound → ∀ x, whole.run? c = some x →
      Raises (Raise.Breaks Violation.IsOther) x
  | .none, _, _, _, _, _, _, _, hx => nomatch hx
  | .custom run, _, _, c, h, hle, hc, _, hx =>
    Option.some.inj hx ▸ Action.raises_run hs (run c) (h c) hle hc

theorem Action.raises_run (hs : scope.Sound) :
    ∀ (action : Action σ) {expected bound : Text} {c : Cursor},
      action.Fits scope.schema asksCondition c expected →
      scope.schema.ObjectsWithin expected bound →
      c.Suits scope bound → Raises (Raise.Breaks Violation.IsOther) (action.run c)
  | .value _, _, _, _, _, _, _ => .pure _
  | .fail _, _, _, _, _, _, _ => .throw trivial
  | .violate _, _, _, _, h, _, hc => raises_violate hs hc h
  | .report _ _ next, _, _, _, h, hle, hc =>
    .bind (.modify _) fun _ => Action.raises_run hs next h hle hc
  | .update _ next, _, _, _, h, hle, hc =>
    .bind (.modify _) fun _ => .bind .get fun world =>
      Action.raises_run hs (next _) (h _) hle hc
  | .resolve node next, _, _, _, h, hle, hc =>
    .bind (raises_resolvePresent hs node h.1 hle hc) fun v =>
      Action.raises_run hs (next v) (h.2 v) hle hc
  | .resolveInto node next, _, _, _, h, hle, hc =>
    .bind (.toResolve (.captured (Node.raises_resolve hs node h.1 hle hc) _ _)) fun _ =>
      Action.raises_run hs (next _) (h.2 _) hle hc
  | .resolveList nodes next, _, _, c, h, hle, hc => by
    unfold Action.run
    cases he : c.currentType.element? with
    | none => exact .throw rfl
    | some element =>
      refine .bind (raises_resolveItems hs _ nodes 0 h.1 hle hc) fun items => ?_
      cases items with
      | none => exact Action.raises_run hs (next .null) (h.2 _) hle hc
      | some items => exact Action.raises_run hs (next (.list items)) (h.2 _) hle hc

theorem raises_resolvePresent (hs : scope.Sound) :
    ∀ (node : Option (Node σ)) {expected bound : Text} {c : Cursor},
      fitsIfAny scope.schema asksCondition node expected →
      scope.schema.ObjectsWithin expected bound →
      c.Suits scope bound →
      Raises (Raise.Breaks Violation.IsOther) (resolvePresent node c)
  | none, _, _, _, _, _, _ => .throw trivial
  | some node, _, _, _, h, hle, hc => Node.raises_resolve hs node h hle hc

theorem raises_resolveItem (hs : scope.Sound) :
    ∀ (node : Option (Node σ)) {expected bound : Text} {c : Cursor},
      fitsIfAny scope.schema asksCondition node expected →
      scope.schema.ObjectsWithin expected bound →
      c.Suits scope bound →
      Raises (Raise.Breaks Violation.IsOther) (resolveItem node c)
  | none, _, _, _, _, _, _ => .pure _
  | some node, _, _, _, h, hle, hc =>
    .bind (.toResolve (.captured (Node.raises_resolve hs node h hle hc) _ _)) fun _ => .pure _

theorem raises_resolveItems (hs : scope.Sound) (stopOnNull : Bool) :
    ∀ (nodes : List (Option (Node σ))) (i : Nat) {expected bound : Text} {c : Cursor},
      fitAll scope.schema asksCondition nodes expected →
      scope.schema.ObjectsWithin expected bound →
      c.Suits scope bound →
      Raises (Raise.Breaks Violation.IsOther) (resolveItems stopOnNull nodes i c)
  | [], _, _, _, _, _, _, _ => .pure _
  | node :: rest, i, _, _, c, h, hle, hc => by
    refine .bind (raises_resolveItem hs node h.1 hle (hc.atIndex i)) fun v => ?_
    split
    · exact .pure _
    · exact .bind (raises_resolveItems hs stopOnNull rest (i + 1) h.2 hle hc) fun _ => .pure _

end

end Running

section Opening

variable {scope : Scope} {d : ObjectDef} {o : Text}

theorem SubscriptionRoot.raises_openField (hs : scope.Sound)
    (ho : scope.schema.type? o = some (.object d)) {root : SubscriptionRoot σ}
    (hroot : root.Fits scope.schema asksCondition o) {c : Cursor} (hc : c.scope = scope)
    {f : RootField} (hf : f.IsSound scope d) :
    Raises Violation.IsOther (root.openField c (.object d) f) := by
  unfold openField
  by_cases hn : f.head.name.value = lit "__typename"
  · simp only [hn, beq_self_eq_true, if_true]
    exact .pure _
  · rcases hf with hf | ⟨declaration, hdecl, hbelow⟩
    · exact absurd hf hn
    obtain ⟨below, hat, g, bound, hg, hsub, hsuits⟩ := hbelow c hc
    obtain rfl : declaration = g := Option.some.inj (hdecl.symm.trans hg)
    simp only [beq_false_of_ne hn, Bool.false_eq_true, if_false, hdecl, hat]
    refine .ofExcept_bind (.ok _) fun below hb => ?_
    obtain rfl := Except.ok.inj hb
    have hopening := Action.raises_run hs _ (hroot.opening _ _ _ (.ofField c.scope.vars f.head
      declaration.arguments) below ho hdecl)
      (Schema.objectsWithin_of_isNamedSubtype hs.named hs.coherent hsub) hsuits
    refine .bind (.captured hopening _ _) fun result => ?_
    cases result <;> exact .pure _

theorem SubscriptionRoot.raises_openStreams (hs : scope.Sound)
    (ho : scope.schema.type? o = some (.object d)) {root : SubscriptionRoot σ}
    (hroot : root.Fits scope.schema asksCondition o) {c : Cursor} (hc : c.scope = scope)
    {selections : SelectionSet}
    (h : SelectionSet.Checked scope.schema scope.fragments (scope.schema.type? o) selections) :
    Raises Violation.IsOther (root.openStreams c (.object d) selections) := by
  obtain ⟨herrs, hsound⟩ := RootField.collects_ofSelections hs ho
    (RootField.collects_expandUpTo hs ho scope.fragments.length) selections o (by simp [ho])
    (by simp) h
  unfold openStreams
  rw [hroot.objectName, hc]
  refine .ofExcept_bind herrs fun fields hx => .bind (.mapM fun f hf => ?_) fun _ => .pure _
  exact raises_openField hs ho hroot hc (hsound fields hx f hf)

end Opening

namespace Service

variable {service : Service σ} {doc : Document} {op : Operation}

theorem scope_sound (op : Operation) (hs : service.schema.Built) (hc : service.schema.Coherent)
    (hdoc : doc.Checked service.schema) (settings : Settings) :
    (op.scope service.schema doc settings).Sound :=
  ⟨hs.wellNamed, hc, hdoc.conditions, hdoc.fragments⟩

/-- What is selected by an operation suits the root of its type. -/
theorem cursor_suits (hdoc : doc.Checked service.schema) (hop : op ∈ doc.operations)
    (settings : Settings) {name : Text} (hname : service.schema.rootName? op.type = some name)
    {type : TypeDef} (htype : service.schema.type? name = some type) :
    (op.cursor (op.scope service.schema doc settings) type).Suits
      (op.scope service.schema doc settings) name := by
  have hsel := hdoc.operations op hop
  simp only [Schema.root?, hname, Option.bind_some] at hsel
  unfold Operation.cursor
  split <;> exact ⟨rfl, by simp [Operation.scope, htype], fun _ hxs => Option.some.inj hxs ▸ hsel⟩

theorem raises_abort {α : Type} {P : Violation → Prop} {v : Violation} (h : P v) :
    Raises P (abort v : Engine σ α) :=
  .bind (fun _ _ he => nomatch he) fun _ => .throw h

theorem errs_requireRoot {α : Type} (op : Operation) (root : Option α) :
    Errs Violation.IsOther (op.requireRoot root) := by
  cases root with
  | none => exact .error rfl
  | some _ => exact .ok _

/-- The type and the value that a query or mutation starts from belong together. -/
theorem root_fits (op : Operation) (hs : service.schema.Built) (hroots : service.Fits asksCondition) :
    Errs Violation.IsOther (service.root op) ∧ ∀ type node, service.root op = .ok (type, node) →
      ∃ name, service.schema.rootName? op.type = some name ∧
        service.schema.type? name = some type ∧
        node.Fits service.schema asksCondition name := by
  unfold root
  cases op.type with
  | query =>
    obtain ⟨d, hd⟩ := hs.wellNamed.roots .query _ rfl
    simp only [Schema.requireType_of_type? hd]
    refine ⟨.bind (.ok _) fun _ _ => .bind (errs_requireRoot _ _) fun _ _ => .ok _,
      fun type node h => ?_⟩
    cases hq : service.query with
    | none =>
      rw [hq] at h
      cases h
    | some root =>
      rw [hq] at h
      cases h
      exact ⟨_, rfl, hd, hroots.query _ hq⟩
  | mutation =>
    cases ht : service.schema.root? .mutation with
    | none => exact ⟨.error rfl, fun _ _ h => nomatch h⟩
    | some type =>
      obtain ⟨name, hname, htype⟩ := Option.bind_eq_some_iff.mp ht
      refine ⟨.bind (errs_requireRoot _ _) fun _ _ => .ok _, fun type' node h => ?_⟩
      cases hm : service.mutation with
      | none =>
        rw [hm] at h
        cases h
      | some root =>
        rw [hm] at h
        cases h
        exact ⟨name, hname, htype, hroots.mutation _ name hm hname⟩
  | subscription => exact ⟨.error rfl, fun _ _ h => nomatch h⟩

theorem subscriptionRoot_fits (op : Operation) (hs : service.schema.Built) (hroots : service.Fits asksCondition) :
    Errs Violation.IsOther (service.subscriptionRoot op) ∧
      ∀ type root, service.subscriptionRoot op = .ok (type, root) →
        ∃ name d, service.schema.rootName? op.type = some name ∧
          service.schema.type? name = some (.object d) ∧ type = .object d ∧
          root.Fits service.schema asksCondition name := by
  unfold subscriptionRoot
  by_cases hop : op.type = .subscription
  · rw [if_pos hop, hop]
    cases ht : service.schema.root? .subscription with
    | none => exact ⟨.error rfl, fun _ _ h => nomatch h⟩
    | some type =>
      obtain ⟨name, hname, htype⟩ := Option.bind_eq_some_iff.mp ht
      obtain ⟨d, hd⟩ := hs.wellNamed.roots .subscription name hname
      refine ⟨.bind (errs_requireRoot _ _) fun _ _ => .ok _, fun type' root h => ?_⟩
      cases hr : service.subscription with
      | none =>
        rw [hr] at h
        cases h
      | some root' =>
        rw [hr] at h
        cases h
        rw [htype] at hd
        exact ⟨name, d, hname, hd ▸ htype, Option.some.inj hd,
          hroots.subscription _ name hr hname⟩
  · rw [if_neg hop]
    exact ⟨.error rfl, fun _ _ h => nomatch h⟩

theorem raises_executeOperation (hs : service.schema.Built) (hc : service.schema.Coherent)
    (hroots : service.Fits asksCondition) (hdoc : doc.Checked service.schema)
    (hop : op ∈ doc.operations) (settings : Settings) :
    Raises Violation.IsOther (service.executeOperation doc op settings) := by
  obtain ⟨herrs, hfits⟩ := root_fits op hs hroots
  unfold executeOperation
  cases hr : service.root op with
  | error v => exact raises_abort (herrs v hr)
  | ok start =>
    obtain ⟨type, node⟩ := start
    obtain ⟨name, hname, htype, hnode⟩ := hfits type node hr
    have hresolve := Node.raises_resolve (scope_sound op hs hc hdoc settings) node hnode
      (.self _ _) (cursor_suits hdoc hop settings hname htype)
    refine .bind (fun _ _ he => nomatch he) fun _ =>
      .perform (.bind (.captured hresolve _ _) fun _ => .pure _) fun result errors hres => ?_
    cases result with
    | ok data => exact .pure _
    | error v => exact raises_abort (hres v rfl)

theorem raises_subscribeOperation (hs : service.schema.Built) (hc : service.schema.Coherent)
    (hroots : service.Fits asksCondition) (hdoc : doc.Checked service.schema)
    (hop : op ∈ doc.operations) (settings : Settings) :
    Raises Violation.IsOther (service.subscribeOperation doc op settings) := by
  obtain ⟨herrs, hfits⟩ := subscriptionRoot_fits op hs hroots
  unfold subscribeOperation
  refine .ofExcept_bind herrs fun start hstart => ?_
  obtain ⟨type, root⟩ := start
  obtain ⟨name, d, hname, hd, rfl, hroot⟩ := hfits type root hstart
  have hsuits := cursor_suits hdoc hop { settings with concurrent := false } hname hd
  have hsel := hdoc.operations op hop
  simp only [Schema.root?, hname, Option.bind_some] at hsel
  have hopen := SubscriptionRoot.raises_openStreams
    (scope_sound op hs hc hdoc { settings with concurrent := false }) hd hroot
    hsuits.inScope hsel
  refine .bind (fun _ _ he => nomatch he) fun _ => .perform hopen fun result errors hres => ?_
  cases result with
  | ok streams => exact .pure _
  | error v => exact .throw (hres v rfl)

/-- Neither executing an operation of a valid document nor opening the streams of a subscription ends
over a field, a fragment or a type that is not there. -/
theorem not_isTypeFault_of_isValid (hs : service.schema.Built) (hc : service.schema.Coherent)
    (hroots : service.Fits asksCondition)
    (hdoc : Validator.isValid Rules.builtin service.schema doc = true)
    (hop : op ∈ doc.operations) (settings : Settings) :
    (∀ session v, ((service.executeOperation doc op settings).run.run session).1 = .error v →
      v.isTypeFault = false) ∧
    ∀ session v, ((service.subscribeOperation doc op settings).run.run session).1 = .error v →
      v.isTypeFault = false := by
  have hchecked := Document.checked_of_isValid hdoc
  exact ⟨raises_executeOperation hs hc hroots hchecked hop settings,
    raises_subscribeOperation hs hc hroots hchecked hop settings⟩

end Service

namespace Pets

def typeWith (name field type : Text) : TypeDef :=
  .object ⟨name, none, [⟨field, none, none, .named type false, .current⟩], []⟩

def registry : Registry :=
  [typeWith (lit "Query") (lit "pet") (lit "Pet"),
    .union ⟨lit "Pet", none, [lit "Cat", lit "Dog"]⟩,
    typeWith (lit "Cat") (lit "meow") (lit "String"),
    typeWith (lit "Dog") (lit "bark") (lit "String")].foldl Registry.define .initial

def schema : Schema :=
  match Schema.build registry (lit "Query") none none with
  | .ok s => s
  | .error _ => ⟨[], [], none, none, [], none⟩

def animal (type : Text) (into : Text → Override Unit) : Node Unit :=
  .mk type type (fun _ _ _ => .value (.ofText type)) into .none

def service (pet : Node Unit) : Service Unit :=
  ⟨schema, some (.mk (lit "Query") (lit "Query")
    (fun name _ _ => if name = lit "pet" then .ofNode (some pet) else .value .null)
    (fun _ => .none) .none), none, none⟩

def operation : Operation :=
  ⟨.query, none, none, none, [.ofName (lit "pet")
    (some [.inFragment (some (lit "Cat")) [.ofName (lit "meow") none]])], .unlocated⟩

def settings : Settings := ⟨[], none, false⟩

theorem built : schema.Built := by
  have hr : registry.Built := .define (.define (.define (.define .initial _) _) _) _
  have hs : Schema.build registry (lit "Query") none none = .ok schema := rfl
  exact .build hr hs

theorem coherent : schema.Coherent := Schema.coherent_of_isCoherentType (by decide)

theorem isValid : Validator.isValid Rules.builtin schema [.operation operation] = true := by
  have h : Validator.reports Rules.builtin schema [.operation operation] = [] := by decide
  simp [Validator.isValid, Validator.validate, h]

theorem animal_fits {asks : Text → Text → Text} {type : Text} {d : ObjectDef}
    (ht : schema.type? type = some (.object d)) {into : Text → Override Unit} {expected : Text}
    (hsub : schema.isNamedSubtype type expected = true)
    (hinto : ∀ condition, (into condition).Fits schema asks (asks expected condition)) :
    (animal type into).Fits schema asks expected :=
  ⟨rfl, hsub, ⟨d, ht, fun _ _ _ _ _ => trivial⟩, hinto, trivial⟩

theorem service_fits {asks : Text → Text → Text} {pet : Node Unit}
    (hpet : pet.Fits schema asks (lit "Pet")) : (service pet).Fits asks where
  query node h := by
    obtain rfl := Option.some.inj h
    have hself : schema.isNamedSubtype (lit "Query") (lit "Query") = true := by simp
    refine ⟨rfl, hself, ⟨_, rfl, fun name f _ _ hf => ?_⟩, fun _ => trivial, trivial⟩
    by_cases hn : name = lit "pet"
    · subst hn
      obtain rfl := Option.some.inj hf
      exact ⟨hpet, fun _ => trivial⟩
    · simp [hn, Action.Fits]
  mutation _ _ h := nomatch h
  subscription _ _ h := nomatch h

theorem operation_mem : operation ∈ Document.operations [.operation operation] := by
  simp [Document.operations, Definition.operation?]

def cat : Node Unit := animal (lit "Cat") fun _ => .none

/-- A cat that is a dog whenever its type is asked for. A dog is a pet too. -/
def disguised : Node Unit :=
  animal (lit "Cat") fun _ => .custom fun _ => .ofNode (some (animal (lit "Dog") fun _ => .none))

theorem not_isTypeFault_cat :
    (service cat).Fits asksCondition ∧
    (∀ session v, (((service cat).executeOperation [.operation operation] operation
      settings).run.run session).1 = .error v → v.isTypeFault = false) ∧
    ∀ session v, (((service cat).subscribeOperation [.operation operation] operation
      settings).run.run session).1 = .error v → v.isTypeFault = false := by
  have hfits : (service cat).Fits asksCondition :=
    service_fits (animal_fits rfl (by decide) fun _ => by trivial)
  exact ⟨hfits, Service.not_isTypeFault_of_isValid built coherent hfits isValid operation_mem
    settings⟩

/-- That every value stands for the type of its field is not enough. -/
theorem isTypeFault_disguised :
    schema.Built ∧ schema.Coherent ∧ (service disguised).Fits (fun expected _ => expected) ∧
    Validator.isValid Rules.builtin schema [.operation operation] = true ∧
    (((service disguised).executeOperation [.operation operation] operation settings).run.run
      ⟨[], ()⟩).1 = .error (.fieldNotFound (lit "meow") (lit "Dog")) := by
  have hdog : (animal (lit "Dog") fun _ => .none).Fits schema (fun expected _ => expected)
      (lit "Pet") := animal_fits rfl (by decide) fun _ => by trivial
  have hfits : (service disguised).Fits fun expected _ => expected :=
    service_fits (animal_fits rfl (by decide) fun _ _ => ⟨hdog, fun _ => trivial⟩)
  exact ⟨built, coherent, hfits, isValid, rfl⟩

end Pets

end GraphQL
