import GraphQL.Proofs.Execution.Expansion
import GraphQL.Proofs.Execution.TypeSafety

/-! Objects on which nothing is selected. No rule asks that something be selected on a field that
gives objects, so that a valid document may overlook it. Where none does, resolvers whose objects
fit the schema never come to resolve one without selections. -/

namespace GraphQL

variable {σ : Type}

/-- `true` for the violations over the shape of a request: the schema has no root for an operation
of its kind, or an object is resolved on which nothing is selected. -/
def Violation.isShapeFault : Violation → Bool
  | noMutationType => true
  | noSubscriptionType => true
  | noSelectionSet _ => true
  | _ => false

abbrev Violation.SparesShape (v : Violation) : Prop := v.isShapeFault = false

theorem Violation.IsMissing.sparesShape {v : Violation} (h : v.IsMissing) : v.SparesShape := by
  cases v with
  | conditionMissing | fragmentNotFound | typeNotFound | fieldNotFound => rfl
  | _ => cases h

mutual

/-- An object of the expected type may come to be resolved on which nothing is selected, given what
is selected on the type. -/
inductive Scope.Overlooks (scope : Scope) : (expected : Text) → Option SelectionSet → Prop where
  | bare {expected o : Text} {d : ObjectDef} (object : scope.schema.type? o = some (.object d))
      (fits : scope.schema.isNamedSubtype o expected = true) : Overlooks scope expected none
  | inside {expected o : Text} {d : ObjectDef} {xs : SelectionSet}
      (object : scope.schema.type? o = some (.object d))
      (fits : scope.schema.isNamedSubtype o expected = true) (h : OverlooksOn scope o d xs) :
      Overlooks scope expected (some xs)

/-- The same on an object, of the type that it is of: below one of its fields that is selected, or
where it is resolved as another type for a fragment. -/
inductive Scope.OverlooksOn (scope : Scope) : (o : Text) → ObjectDef → SelectionSet → Prop where
  | field {o : Text} {d : ObjectDef} {xs : SelectionSet} {head : FieldHead}
      {body : Option SelectionSet} {f : FieldDef} (mem : .field head body ∈ xs)
      (included : Directives.exclude scope.vars (head.directives.getD []) = .ok false)
      (data : head.name.value ≠ lit "__typename")
      (declared : (TypeDef.object d).field? head.name.value = some f)
      (h : Overlooks scope f.type.innermostName body) : OverlooksOn scope o d xs
  | spread {o : Text} {d : ObjectDef} {xs : SelectionSet} {sp : Spread} {f : Fragment}
      (mem : .spread sp ∈ xs) (put : scope.spreadOn o sp = .ok (some f))
      (h : OverlooksOn scope o d f.selections) : OverlooksOn scope o d xs
  | inline {o : Text} {d : ObjectDef} {xs body : SelectionSet} {head : InlineHead}
      (mem : .inline head body ∈ xs) (unconditional : head.condition = none)
      (entered : scope.entersInline o head = .ok true) (h : OverlooksOn scope o d body) :
      OverlooksOn scope o d xs
  | narrow {o : Text} {d : ObjectDef} {xs body : SelectionSet} {head : InlineHead}
      {condition : Located Text} (mem : .inline head body ∈ xs)
      (conditional : head.condition = some condition)
      (entered : scope.entersInline o head = .ok true)
      (h : Overlooks scope condition.value (some body)) : OverlooksOn scope o d xs

end

theorem Scope.OverlooksOn.mono {scope : Scope} {o : Text} {d : ObjectDef} {xs ys : SelectionSet}
    (h : scope.OverlooksOn o d xs) (hsub : xs ⊆ ys) : scope.OverlooksOn o d ys := by
  cases h with
  | field mem included data declared h => exact .field (hsub mem) included data declared h
  | spread mem put h => exact .spread (hsub mem) put h
  | inline mem unconditional entered h => exact .inline (hsub mem) unconditional entered h
  | narrow mem conditional entered h => exact .narrow (hsub mem) conditional entered h

section Resolvers

mutual

/-- Whatever a value breaks off with of its own accord is of a kind. -/
def Node.BreaksOnly (P : Violation → Prop) : Node σ → Prop
  | .mk _ _ field into whole =>
    (∀ name arguments c, (field name arguments c).BreaksOnly P) ∧
      (∀ condition, (into condition).BreaksOnly P) ∧ whole.BreaksOnly P

def Override.BreaksOnly (P : Violation → Prop) : Override σ → Prop
  | .none => True
  | .custom run => ∀ c, (run c).BreaksOnly P

def Action.BreaksOnly (P : Violation → Prop) : Action σ → Prop
  | .value _ => True
  | .fail _ => True
  | .violate v => P v
  | .report _ _ next => next.BreaksOnly P
  | .update _ next => ∀ world, (next world).BreaksOnly P
  | .resolve node next => breakOnlyIfAny P node ∧ ∀ v, (next v).BreaksOnly P
  | .resolveInto node next => node.BreaksOnly P ∧ ∀ v, (next v).BreaksOnly P
  | .resolveList nodes next => breakOnlyAll P nodes ∧ ∀ v, (next v).BreaksOnly P

def breakOnlyIfAny (P : Violation → Prop) : Option (Node σ) → Prop
  | none => True
  | some node => node.BreaksOnly P

def breakOnlyAll (P : Violation → Prop) : List (Option (Node σ)) → Prop
  | [] => True
  | node :: rest => breakOnlyIfAny P node ∧ breakOnlyAll P rest

end

/-- The values that operations start from, and what opens the streams of subscriptions. -/
structure Service.BreaksOnly (service : Service σ) (P : Violation → Prop) : Prop where
  query : ∀ node, service.query = some node → node.BreaksOnly P
  mutation : ∀ node, service.mutation = some node → node.BreaksOnly P
  subscription : ∀ root, service.subscription = some root →
    ∀ name arguments c, (root.stream name arguments c).opening.BreaksOnly P

end Resolvers

namespace Plan

variable {scope : Scope} {d : ObjectDef} {o : Text} {expand : Expand}

/-- A plan on an object that overlooks nothing, and does not stop over the shape of the request. -/
abbrev SparesShape (scope : Scope) (d : ObjectDef) (p : Plan) : Prop :=
  p.All (fun t => t.cursor.scope = scope ∧ ∃ f, (TypeDef.object d).field? t.name = some f ∧
      ¬ scope.Overlooks f.type.innermostName t.cursor.selections)
    (fun n => n.cursor.scope = scope ∧ ¬ scope.Overlooks n.condition n.cursor.selections)
    Violation.SparesShape

mutual

theorem sparesShape_ofSelection (ho : scope.schema.type? o = some (.object d))
    (hexpand : ∀ c f, c.scope = scope → ¬ scope.OverlooksOn o d f.selections →
      (expand c f).SparesShape scope d) :
    ∀ (x : Selection) (c : Cursor), c.scope = scope → ¬ scope.OverlooksOn o d [x] →
      ∀ s, ofSelection ⟨.object d, o⟩ expand c x = .ok (some s) →
      s.All (fun t => t.cursor.scope = scope ∧ ∃ f, (TypeDef.object d).field? t.name = some f ∧
          ¬ scope.Overlooks f.type.innermostName t.cursor.selections)
        (fun n => n.cursor.scope = scope ∧ ¬ scope.Overlooks n.condition n.cursor.selections)
        Violation.SparesShape
  | .field head body, c, hc, h, s, hs => by
    obtain ⟨hincluded, hfield⟩ := ofField_of_ofSelection hs
    rw [hc] at hincluded
    by_cases hn : head.name.value = lit "__typename"
    · have htypename : s = .typename head.responseName := by
        simpa [ofField, hn, pure, Except.pure] using hfield.symm
      rw [htypename]
      trivial
    · rcases ofField_cases_of_ok hfield with ⟨hname, -⟩ | ⟨f, below, hf, hat, rfl⟩
      · exact absurd hname hn
      · obtain ⟨type, -, rfl⟩ := Cursor.exists_of_atField hat
        have hbelow : ¬ scope.Overlooks f.type.innermostName body :=
          fun hb => h (.field List.mem_cons_self hincluded hn hf hb)
        exact ⟨hc, f, hf, hbelow⟩
  | .spread sp, c, hc, h, s, hs => by
    obtain ⟨f, hput, rfl⟩ := spreadOn_of_ofSelection hs
    rw [hc] at hput
    exact hexpand c f hc fun hf => h (.spread List.mem_cons_self hput hf)
  | .inline head body, c, hc, h, s, hs => by
    obtain ⟨hentered, rfl⟩ := entersInline_of_ofSelection hs
    rw [hc] at hentered
    unfold Step.ofInline
    cases hcond : head.condition with
    | none =>
      have hbody : ¬ scope.OverlooksOn o d body :=
        fun hb => h (.inline List.mem_cons_self hcond hentered hb)
      exact sparesShape_ofSelections ho hexpand body _ hc hbody
    | some condition =>
      have hnarrow : ¬ scope.Overlooks condition.value (some body) :=
        fun hb => h (.narrow List.mem_cons_self hcond hentered hb)
      have hfits := Scope.stands_of_entersInline hentered hcond
      -- the object itself is one that may be resolved inside the fragment
      have hbody : ¬ scope.OverlooksOn o d body := fun hb => hnarrow (.inside ho hfits hb)
      exact ⟨⟨hc, hnarrow⟩, sparesShape_ofSelections ho hexpand body _ hc hbody⟩

theorem sparesShape_ofSelections (ho : scope.schema.type? o = some (.object d))
    (hexpand : ∀ c f, c.scope = scope → ¬ scope.OverlooksOn o d f.selections →
      (expand c f).SparesShape scope d) :
    ∀ (xs : List Selection) (c : Cursor), c.scope = scope → ¬ scope.OverlooksOn o d xs →
      (ofSelections ⟨.object d, o⟩ expand c xs).SparesShape scope d
  | [], _, _, _ => trivial
  | x :: rest, c, hc, h => by
    have hx := sparesShape_ofSelection ho hexpand x c hc fun hx => h (hx.mono (by simp))
    have hrest := sparesShape_ofSelections ho hexpand rest c hc fun hr => h (hr.mono (by simp))
    unfold ofSelections
    rcases hsel : ofSelection ⟨.object d, o⟩ expand c x with v | _ | s
    · exact (errs_ofSelection_missing x c v hsel).sparesShape
    · exact hrest
    · exact ⟨hx s hsel, hrest⟩

end

/-- What an object that overlooks nothing comes to be planned for overlooks nothing. -/
theorem sparesShape_ofSelectionSet (ho : scope.schema.type? o = some (.object d)) {c : Cursor}
    (hc : c.scope = scope) {xs : SelectionSet} (h : ¬ scope.OverlooksOn o d xs) :
    (ofSelectionSet ⟨.object d, o⟩ c xs).SparesShape scope d := by
  have hexpand (depth : Nat) : ∀ c f, c.scope = scope → ¬ scope.OverlooksOn o d f.selections →
      (expandUpTo ⟨.object d, o⟩ depth c f).SparesShape scope d := by
    induction depth with
    | zero => exact fun _ _ _ _ => rfl
    | succ depth ih => exact fun c f hc hf => sparesShape_ofSelections ho ih f.selections c hc hf
  exact sparesShape_ofSelections ho (hexpand _) xs c hc h

end Plan

section Running

variable {scope : Scope}

mutual

/-- An object that fits a type is never resolved without selections where they overlook nothing. -/
theorem Node.raises_shape : ∀ (node : Node σ) {expected : Text} {c : Cursor},
    node.Fits scope.schema asksCondition expected → node.BreaksOnly Violation.SparesShape →
    c.scope = scope → ¬ scope.Overlooks expected c.selections →
    Raises (Raise.Breaks Violation.SparesShape) (node.resolve c)
  | .mk typeName objectName field into whole, expected, c,
      ⟨hname, hsub, ⟨d, hd, hfield⟩, hinto, hwhole⟩, ⟨hfieldOnly, hintoOnly, hwholeOnly⟩,
      hc, h => by
    subst hname
    unfold Node.resolve
    cases hw : whole.run? c with
    | some x => exact Override.raises_shape whole hwhole hwholeOnly hc h x hw
    | none =>
      cases hsel : c.selections with
      | none =>
        rw [hsel] at h
        exact absurd (.bare hd hsub) h
      | some selections =>
        rw [hsel] at h
        have hon : ¬ scope.OverlooksOn objectName d selections := fun hon => h (.inside hd hsub hon)
        have hplan := Plan.sparesShape_ofSelectionSet hd hc hon
        apply Raises.toResolve
        rw [Cursor.resolveSelections_of_type (by rwa [hc])]
        refine .bind (Plan.raises_run ?_ ?_ (fun _ h => h) _ _ hplan) fun _ => .pure _
        · rintro t ⟨hscope, f, hf, hbelow⟩
          exact Action.raises_shape _ (hfield _ f _ _ hf) (hfieldOnly _ _ _) hscope hbelow
        · rintro n x ⟨hscope, hbelow⟩ hx
          exact Override.raises_shape (into n.condition) (hinto _) (hintoOnly _) hscope hbelow x hx

theorem Override.raises_shape : ∀ (whole : Override σ) {expected : Text} {c : Cursor},
    whole.Fits scope.schema asksCondition expected → whole.BreaksOnly Violation.SparesShape →
    c.scope = scope → ¬ scope.Overlooks expected c.selections →
    ∀ x, whole.run? c = some x → Raises (Raise.Breaks Violation.SparesShape) x
  | .none, _, _, _, _, _, _, _, hx => nomatch hx
  | .custom run, _, c, h, honly, hc, hnone, _, hx =>
    Option.some.inj hx ▸ Action.raises_shape (run c) (h c) (honly c) hc hnone

theorem Action.raises_shape : ∀ (action : Action σ) {expected : Text} {c : Cursor},
    action.Fits scope.schema asksCondition c expected → action.BreaksOnly Violation.SparesShape →
    c.scope = scope → ¬ scope.Overlooks expected c.selections →
    Raises (Raise.Breaks Violation.SparesShape) (action.run c)
  | .value _, _, _, _, _, _, _ => .pure _
  | .fail _, _, _, _, _, _, _ => .throw trivial
  | .violate _, _, _, _, honly, _, _ => .throw honly
  | .report _ _ next, _, _, h, honly, hc, hnone =>
    .bind (.modify _) fun _ => Action.raises_shape next h honly hc hnone
  | .update _ next, _, _, h, honly, hc, hnone =>
    .bind (.modify _) fun _ => .bind .get fun _ =>
      Action.raises_shape (next _) (h _) (honly _) hc hnone
  | .resolve node next, _, _, h, honly, hc, hnone =>
    .bind (raisesShape_resolvePresent node h.1 honly.1 hc hnone) fun v =>
      Action.raises_shape (next v) (h.2 v) (honly.2 v) hc hnone
  | .resolveInto node next, _, _, h, honly, hc, hnone =>
    .bind (.toResolve (.captured (Node.raises_shape node h.1 honly.1 hc hnone) _ _)) fun _ =>
      Action.raises_shape (next _) (h.2 _) (honly.2 _) hc hnone
  | .resolveList nodes next, _, c, h, honly, hc, hnone => by
    unfold Action.run
    cases c.currentType.element? with
    | none => exact .throw rfl
    | some element =>
      refine .bind (raisesShape_resolveItems _ nodes 0 h.1 honly.1 hc hnone) fun items => ?_
      cases items with
      | none => exact Action.raises_shape (next .null) (h.2 _) (honly.2 _) hc hnone
      | some items => exact Action.raises_shape (next (.list items)) (h.2 _) (honly.2 _) hc hnone

theorem raisesShape_resolvePresent : ∀ (node : Option (Node σ)) {expected : Text} {c : Cursor},
    fitsIfAny scope.schema asksCondition node expected →
    breakOnlyIfAny Violation.SparesShape node →
    c.scope = scope → ¬ scope.Overlooks expected c.selections →
    Raises (Raise.Breaks Violation.SparesShape) (resolvePresent node c)
  | none, _, _, _, _, _, _ => .throw trivial
  | some node, _, _, h, honly, hc, hnone => Node.raises_shape node h honly hc hnone

theorem raisesShape_resolveItem : ∀ (node : Option (Node σ)) {expected : Text} {c : Cursor},
    fitsIfAny scope.schema asksCondition node expected →
    breakOnlyIfAny Violation.SparesShape node →
    c.scope = scope → ¬ scope.Overlooks expected c.selections →
    Raises (Raise.Breaks Violation.SparesShape) (resolveItem node c)
  | none, _, _, _, _, _, _ => .pure _
  | some node, _, _, h, honly, hc, hnone =>
    .bind (.toResolve (.captured (Node.raises_shape node h honly hc hnone) _ _)) fun _ => .pure _

theorem raisesShape_resolveItems (stopOnNull : Bool) :
    ∀ (nodes : List (Option (Node σ))) (i : Nat) {expected : Text} {c : Cursor},
      fitAll scope.schema asksCondition nodes expected →
      breakOnlyAll Violation.SparesShape nodes →
      c.scope = scope → ¬ scope.Overlooks expected c.selections →
      Raises (Raise.Breaks Violation.SparesShape) (resolveItems stopOnNull nodes i c)
  | [], _, _, _, _, _, _, _ => .pure _
  | node :: rest, i, _, c, h, honly, hc, hnone => by
    have hrest := raisesShape_resolveItems stopOnNull rest (i + 1) h.2 honly.2 hc hnone
    -- items of a list have the selections of the list
    refine .bind (raisesShape_resolveItem node h.1 honly.1 hc hnone) fun v => ?_
    split
    · exact .pure _
    · exact .bind hrest fun _ => .pure _

end

end Running

section Opening

variable {scope : Scope} {d : ObjectDef} {o : Text}

/-- The same below a field of a subscription root. -/
def RootField.Overlooks (scope : Scope) (d : ObjectDef) (f : RootField) : Prop :=
  f.head.name.value ≠ lit "__typename" ∧ ∃ declaration,
    (TypeDef.object d).field? f.head.name.value = some declaration ∧
      scope.Overlooks declaration.type.innermostName f.selections

theorem RootField.errs_ofSelectionSet_missing
    (hbound : ∀ xs chain, scope.Nested xs chain → chain.length ≤ scope.fragments.length)
    (o : Text) (xs : SelectionSet) :
    Errs Violation.IsMissing (ofSelectionSet scope o xs) := by
  have hends : Traversal.Ends (traversal scope o) (fun _ => True) scope.fragments.length
      fun _ => ofSelectionSet scope o := RootField.ends hbound
  exact hends.carries (fun _ _ => .ok []) (fun _ _ => Errs.ok [])
    (fun _ h _ xs => errs_ofSelections_missing (h ()) xs) () xs trivial

theorem SubscriptionRoot.raisesShape_openField (ho : scope.schema.type? o = some (.object d))
    {root : SubscriptionRoot σ} (hroot : root.Fits scope.schema asksCondition o)
    (honly : ∀ name arguments c,
      (root.stream name arguments c).opening.BreaksOnly Violation.SparesShape)
    {c : Cursor} (hc : c.scope = scope) {f : RootField} (hf : ¬ f.Overlooks scope d) :
    Raises Violation.SparesShape (root.openField c (.object d) f) := by
  unfold openField
  by_cases hn : f.head.name.value = lit "__typename"
  · simp only [hn, beq_self_eq_true, if_true]
    exact .pure _
  · simp only [beq_false_of_ne hn, Bool.false_eq_true, if_false]
    cases hdecl : (TypeDef.object d).field? f.head.name.value with
    | none => exact .throw rfl
    | some declaration =>
      have hat : Errs Violation.SparesShape (c.atField ⟨f.head, declaration⟩ f.selections) := by
        refine .bind (fun v hv => ?_) fun _ _ => .ok _
        exact (Schema.errs_position c.scope.schema declaration.type v hv).sparesShape
      refine .ofExcept_bind hat fun sub hsub => ?_
      obtain ⟨type, -, hsub⟩ := Cursor.exists_of_atField hsub
      have hscope : sub.scope = scope := by rw [hsub, hc]
      have hbelow : ¬ scope.Overlooks declaration.type.innermostName sub.selections := by
        rw [hsub]
        exact fun hb => hf ⟨hn, declaration, hdecl, hb⟩
      have hopening := hroot.opening _ _ _ (.ofField c.scope.vars f.head declaration.arguments) sub
        ho hdecl
      have hraises := Action.raises_shape _ hopening (honly _ _ _) hscope hbelow
      refine .bind (.captured hraises _ _) fun result => ?_
      cases result <;> exact .pure _

theorem SubscriptionRoot.raisesShape_openStreams
    (hbound : ∀ xs chain, scope.Nested xs chain → chain.length ≤ scope.fragments.length)
    (ho : scope.schema.type? o = some (.object d))
    {root : SubscriptionRoot σ} (hroot : root.Fits scope.schema asksCondition o)
    (honly : ∀ name arguments c,
      (root.stream name arguments c).opening.BreaksOnly Violation.SparesShape)
    {c : Cursor} (hc : c.scope = scope) {xs : SelectionSet}
    (h : ∀ fields, RootField.ofSelectionSet scope o xs = .ok fields →
      ∀ f ∈ fields, ¬ f.Overlooks scope d) :
    Raises Violation.SparesShape (root.openStreams c (.object d) xs) := by
  unfold openStreams
  rw [hroot.objectName, hc]
  have herrs : Errs Violation.SparesShape (RootField.ofSelectionSet scope o xs) :=
    fun v hv => (RootField.errs_ofSelectionSet_missing hbound o xs v hv).sparesShape
  refine .ofExcept_bind herrs fun fields hx => .bind (.mapM fun f hf => ?_) fun _ => .pure _
  exact raisesShape_openField ho hroot honly hc (h fields hx f hf)

end Opening

/-- Below the root of an operation an object may come to be resolved on which nothing is
selected. -/
def Operation.Overlooks (op : Operation) (schema : Schema) (doc : Document)
    (settings : Settings) : Prop :=
  ∃ o d, schema.rootName? op.type = some o ∧ schema.type? o = some (.object d) ∧
    if op.type = .subscription then
      let scope := op.scope schema doc { settings with concurrent := false }
      ∃ fields, RootField.ofSelectionSet scope o op.selections = .ok fields ∧
        ∃ f ∈ fields, f.Overlooks scope d
    else (op.scope schema doc settings).Overlooks o (some op.selections)

namespace Service

variable {service : Service σ} {doc : Document} {op : Operation}

/-- Where the schema has a root for an operation, looking for it does not fail over that. -/
theorem errs_root_sparesShape (h : (service.schema.root? op.type).isSome) :
    Errs Violation.SparesShape (service.root op) := by
  have hrequired {α : Type} (root : Option α) :
      Errs Violation.SparesShape (op.requireRoot root) := by
    cases root with
    | none => exact .error rfl
    | some root => exact .ok root
  unfold root
  cases hop : op.type with
  | query =>
    refine .bind (fun v hv => ?_) fun _ _ => .bind (hrequired _) fun _ _ => .ok _
    exact (Schema.errs_requireType _ _ v hv).sparesShape
  | mutation =>
    rw [hop] at h
    obtain ⟨type, htype⟩ := Option.isSome_iff_exists.mp h
    simp only [htype]
    exact .bind (hrequired _) fun _ _ => .ok _
  | subscription => exact .error rfl

theorem errs_subscriptionRoot_sparesShape (h : (service.schema.root? op.type).isSome) :
    Errs Violation.SparesShape (service.subscriptionRoot op) := by
  unfold subscriptionRoot
  by_cases hop : op.type = .subscription
  · rw [hop] at h
    obtain ⟨type, htype⟩ := Option.isSome_iff_exists.mp h
    simp only [hop, if_true, htype]
    refine .bind ?_ fun _ _ => .ok _
    cases service.subscription with
    | none => exact .error rfl
    | some root => exact .ok root
  · rw [if_neg hop]
    exact .error rfl

theorem breaksOnly_of_root {P : Violation → Prop} (honly : service.BreaksOnly P) {type : TypeDef}
    {node : Node σ} (hroot : service.root op = .ok (type, node)) : node.BreaksOnly P := by
  rcases (root_cases hroot).2 with ⟨-, hnode⟩ | ⟨-, hnode⟩
  · exact honly.query node hnode
  · exact honly.mutation node hnode

theorem raisesShape_executeOperation (hs : service.schema.Built)
    (hroots : service.Fits asksCondition) (honly : service.BreaksOnly Violation.SparesShape)
    (hroot : (service.schema.root? op.type).isSome) {settings : Settings}
    (hnone : ¬ op.Overlooks service.schema doc settings) :
    Raises Violation.SparesShape (service.executeOperation doc op settings) := by
  unfold executeOperation
  cases hstart : service.root op with
  | error v => exact raises_abort (errs_root_sparesShape hroot v hstart)
  | ok start =>
    obtain ⟨type, node⟩ := start
    obtain ⟨o, hname, htype, hnode⟩ := (root_fits op hs hroots).2 type node hstart
    obtain ⟨d, hd⟩ := hs.wellNamed.roots op.type o hname
    have hop : op.type ≠ .subscription := by
      intro hop
      unfold root at hstart
      rw [hop] at hstart
      cases hstart
    have hbelow : ¬ (op.scope service.schema doc settings).Overlooks o
        (op.cursor (op.scope service.schema doc settings) type).selections := by
      rw [op.selections_cursor]
      exact fun h => hnone ⟨o, d, hname, hd, by rwa [if_neg hop]⟩
    have hresolve := Node.raises_shape node hnode (breaksOnly_of_root honly hstart)
      (op.scope_cursor _ type) hbelow
    refine .bind (fun _ _ he => nomatch he) fun _ =>
      .perform (.bind (.captured hresolve _ _) fun _ => .pure _) fun result errors hres => ?_
    cases result with
    | ok data => exact .pure _
    | error v => exact raises_abort (hres v rfl)

theorem raisesShape_subscribeOperation (hs : service.schema.Built)
    (hroots : service.Fits asksCondition) (honly : service.BreaksOnly Violation.SparesShape)
    (hroot : (service.schema.root? op.type).isSome) {settings : Settings}
    (hbound : ∀ xs chain,
      (op.scope service.schema doc { settings with concurrent := false }).Nested xs chain →
        chain.length ≤ doc.fragments.length)
    (hnone : ¬ op.Overlooks service.schema doc settings) :
    Raises Violation.SparesShape (service.subscribeOperation doc op settings) := by
  obtain ⟨-, hfits⟩ := subscriptionRoot_fits op hs hroots
  unfold subscribeOperation
  refine .ofExcept_bind (errs_subscriptionRoot_sparesShape hroot) fun start hstart => ?_
  obtain ⟨type, root⟩ := start
  obtain ⟨o, d, hname, hd, rfl, hfit⟩ := hfits type root hstart
  obtain ⟨hop, -, hvalue⟩ := subscriptionRoot_cases hstart
  have hopen : Raises Violation.SparesShape (root.openStreams
      (op.cursor (op.scope service.schema doc { settings with concurrent := false }) (.object d))
      (.object d) op.selections) := by
    refine SubscriptionRoot.raisesShape_openStreams hbound hd hfit
      (honly.subscription root hvalue) (op.scope_cursor _ _) fun fields hfields f hf hover => ?_
    refine hnone ⟨o, d, hname, hd, ?_⟩
    rw [if_pos hop]
    exact ⟨fields, hfields, f, hf, hover⟩
  refine .bind (fun _ _ he => nomatch he) fun _ => .perform hopen fun result errors hres => ?_
  cases result with
  | ok streams => exact .pure _
  | error v => exact .throw (hres v rfl)

end Service

end GraphQL
