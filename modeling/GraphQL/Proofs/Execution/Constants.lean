import GraphQL.Proofs.Document.Constants
import GraphQL.Proofs.Execution.Ahead
import GraphQL.Proofs.Execution.Places

/-! No reference to a variable reaches a resolver. Where execution starts, the variables of an
operation have constant values, and no default of the schema refers to one; this holds wherever
execution goes on, so that all arguments that resolvers are given are constant, and all those that
look-ahead shows. -/

namespace GraphQL

open InputValue

variable {σ : Type}

/-- Look-ahead in which no argument refers to a variable, at any depth. -/
inductive LookAhead.IsConstant : LookAhead → Prop where
  | mk {l : LookAhead} (arguments : AreConstant l.arguments)
      (children : ∀ child ∈ l.children, child.IsConstant) : IsConstant l

/-- A place at which arguments are constant once variables have their values. -/
structure Cursor.IsConstant (c : Cursor) : Prop where
  vars : AreConstant c.scope.vars
  schema : c.scope.schema.ConstantDefaults
  type : c.currentType.innermost.ConstantDefaults
  field : ∀ f, c.field = some f → f.declaration.ConstantDefaults

/-- Look-ahead from a cursor is constant, also once it is narrowed to a type. -/
def Cursor.ShowsConstants (c : Cursor) : Prop :=
  ∀ l, c.lookAhead = .ok l → l.IsConstant ∧ ∀ o, (l.narrow o).IsConstant

/-- A call is given constant arguments, and what it can look ahead at is constant. -/
def Call.IsConstant : Call → Prop
  | field t => AreConstant t.arguments ∧ t.cursor.ShowsConstants
  | into n => n.cursor.ShowsConstants
  | whole c => c.ShowsConstants

namespace LookAhead

mutual

theorem isConstant_narrow (o : Text) : ∀ l : LookAhead, l.IsConstant → (l.narrow o).IsConstant
  | ⟨name, aliasName, arguments, appliesTo, children⟩, .mk harguments hchildren => by
    unfold narrow
    exact .mk harguments (isConstant_narrowAll o children hchildren)

theorem isConstant_narrowAll (o : Text) : ∀ ls : List LookAhead, (∀ l ∈ ls, l.IsConstant) →
    ∀ l ∈ narrowAll o ls, l.IsConstant
  | [], _, l, hl => (List.not_mem_nil hl).elim
  | first :: rest, h, l, hl => by
    have hfirst := isConstant_narrow o first (h first List.mem_cons_self)
    have hrest := isConstant_narrowAll o rest fun l hl => h l (List.mem_cons_of_mem _ hl)
    unfold narrowAll at hl
    split at hl
    · rcases List.mem_cons.mp hl with rfl | hl
      · exact hfirst
      · exact hrest l hl
    · exact hrest l hl

end

/-- Arguments are constant if the defaults of the declaration are, as far as it is known. -/
def ConstantAsDeclared (_head : FieldHead) (declaration : Option FieldDef)
    (args : FieldArguments) : Prop :=
  (∀ d, declaration = some d → d.ConstantDefaults) → AreConstant args

theorem constantAsDeclared_ofField {vars : Variables} (hvars : AreConstant vars) (head : FieldHead)
    (declaration : Option FieldDef) : ConstantAsDeclared head declaration
      (FieldArguments.ofField vars head (declaration.bind FieldDef.arguments)) := by
  intro hd
  apply FieldArguments.areConstant_ofField hvars head
  cases declaration with
  | none =>
    intro arg harg
    cases harg
  | some d => exact hd d rfl

theorem SeenIn.isConstant {scope : Scope} (hschema : scope.schema.ConstantDefaults)
    {parent : Option TypeDef} {xs : SelectionSet} {l : LookAhead}
    (h : l.SeenIn scope ConstantAsDeclared parent xs)
    (hparent : ∀ t, parent = some t → t.ConstantDefaults) : l.IsConstant := by
  induction h with
  | field _ _ _ _ arguments _ ih =>
    refine .mk (arguments fun d hd => ?_) fun child hchild => ih child hchild fun t ht => ?_
    · obtain ⟨t, ht, hfield⟩ := Option.bind_eq_some_iff.mp hd
      exact hparent t ht _ d hfield
    · obtain ⟨d, -, htype⟩ := Option.bind_eq_some_iff.mp ht
      exact hschema _ t htype
  | spread _ _ _ _ ih => exact ih fun t ht => hschema _ t ht
  | @inline _ _ _ head _ _ _ _ ih =>
    refine ih fun t ht => ?_
    cases hcondition : head.condition with
    | none => exact hparent t (by simpa [Visit.typeInside, hcondition] using ht)
    | some condition =>
      exact hschema condition.value t (by simpa [Visit.typeInside, hcondition] using ht)

end LookAhead

namespace Cursor.IsConstant

variable {c : Cursor}

/-- What can be looked ahead at from such a place is constant. -/
theorem showsConstants (h : c.IsConstant) : c.ShowsConstants := by
  intro l hl
  have hdeclared := LookAhead.constantAsDeclared_ofField h.vars
  have hchildren : ∀ child ∈ l.children, child.IsConstant := fun child hchild =>
    (seenIn_of_lookAhead hdeclared hl child hchild).isConstant h.schema
      fun t ht => Option.some.inj ht ▸ h.type
  have hl' : l.IsConstant := by
    rw [eq_of_lookAhead hl]
    cases hf : c.field with
    | none => exact .mk areConstant_nil hchildren
    | some f =>
      exact .mk (hdeclared f.head (some f.declaration)
        fun d hd => Option.some.inj hd ▸ h.field f hf) hchildren
  exact ⟨hl', fun o => LookAhead.isConstant_narrow o l hl'⟩

theorem atIndex (h : c.IsConstant) (i : Nat) : (c.atIndex i).IsConstant := by
  refine ⟨h.vars, h.schema, ?_, h.field⟩
  unfold Cursor.atIndex
  cases he : c.currentType.element? with
  | none => exact h.type
  | some e =>
    have hinnermost := TypePosition.innermost_of_element? he
    dsimp only
    rw [Option.getD_some, hinnermost]
    exact h.type

theorem atInline (h : c.IsConstant) (condition : Option (Located Text)) (body : SelectionSet) :
    (c.atInline condition body).IsConstant := by
  refine ⟨h.vars, h.schema, ?_, h.field⟩
  unfold Cursor.atInline
  cases condition with
  | none => exact h.type
  | some condition =>
    cases ht : c.scope.schema.type? condition.value with
    | none => simpa [ht] using h.type
    | some t =>
      have ht' : (TypePosition.concrete t).innermost.ConstantDefaults :=
        h.schema condition.value t ht
      simpa [ht] using ht'

theorem atField (h : c.IsConstant) {field : SelectedField} {body : Option SelectionSet}
    {below : Cursor} (hat : c.atField field body = .ok below)
    (hd : field.declaration.ConstantDefaults) : below.IsConstant := by
  obtain ⟨type, htype, rfl⟩ := Cursor.exists_of_atField hat
  obtain ⟨name, hname⟩ := Schema.type?_of_position htype
  refine ⟨h.vars, h.schema, h.schema name _ hname, fun f hf => ?_⟩
  rw [← Option.some.inj hf]
  exact hd

end Cursor.IsConstant

/-- Such places stay such places wherever execution goes on. -/
theorem Cursor.carries_isConstant (op : Operation) (doc : Document) :
    Cursor.Carries op doc Cursor.IsConstant Call.IsConstant where
  whole _ hc := hc.showsConstants
  into _ hn := hn.showsConstants
  atIndex _ i hc := hc.atIndex i
  atInline _ condition body hc := hc.atInline condition body
  atField c name type head declaration _ _ hc _ htype hd hat := by
    have hdeclaration := hc.schema name type htype _ declaration hd
    have hbelow := hc.atField hat hdeclaration
    have harguments := FieldArguments.areConstant_ofField hc.vars head hdeclaration
    exact ⟨⟨harguments, hbelow.showsConstants⟩, hbelow⟩

/-- Every call that is entered is given constants. -/
def Mark.EnterConstants (ms : List Mark) : Prop := ∀ call, enter call ∈ ms → call.IsConstant

/-- Whatever is called in a run of a job is given constants. -/
def Job.EntersConstants (p : Job σ) : Prop :=
  ∀ s ms r s', Runs p s ms r s' → Mark.EnterConstants ms

theorem Operation.isConstant_cursor {op : Operation} {schema : Schema} {doc : Document}
    {settings : Settings} {type : TypeDef} (hvars : AreConstant (op.withDefaults settings.vars))
    (hschema : schema.ConstantDefaults) (htype : type.ConstantDefaults) :
    (op.cursor (op.scope schema doc settings) type).IsConstant := by
  have hroot : (Cursor.root (op.scope schema doc settings) op.selections type
      op.span.start).IsConstant := ⟨hvars, hschema, htype, nofun⟩
  unfold cursor
  dsimp only
  split
  · exact ⟨hroot.vars, hroot.schema, hroot.type, hroot.field⟩
  · exact hroot

theorem Schema.ConstantDefaults.ofRoot {schema : Schema} (hschema : schema.ConstantDefaults)
    {operation : OperationType} {type : TypeDef} (htype : schema.root? operation = some type) :
    type.ConstantDefaults := by
  obtain ⟨name, -, hname⟩ := Option.bind_eq_some_iff.mp htype
  exact hschema name type hname

/-- No reference to a variable reaches a resolver, where those who send a request and those who
write the schema supply none. All that is executed of an operation of a document that was read is
given constant arguments, and can look ahead at constant arguments only, in whatever order its
fields are resolved: the values below the root of a query or mutation, the streams of a subscription
when they are opened, and all that resolves an event of such a stream. -/
theorem Service.calls_areConstant {service : Service σ} (hschema : service.schema.ConstantDefaults)
    {schema : Schema} {source : Text} {doc : Document}
    (hdoc : Document.ofText schema source = .ok doc) {op : Operation} (hop : op ∈ doc.operations)
    {settings : Settings} (hvars : AreConstant settings.vars) :
    (∀ type node, service.root op = .ok (type, node) →
      (op.job service.schema doc settings type node).EntersConstants ∧
      ∀ session, ∃ ms r s',
        (op.job service.schema doc settings type node).Runs ⟨[], session.world⟩ ms r s' ∧
        ((service.executeOperation doc op settings).run.run session).1 = r.toOutput s'.errors ∧
        ((service.executeOperation doc op settings).run.run session).2.world = s'.world) ∧
    ∀ type root, service.subscriptionRoot op = .ok (type, root) →
      (op.subscriptionJob service.schema doc settings type root).EntersConstants ∧
      ∀ session,
        (∃ ms r s', (op.subscriptionJob service.schema doc settings type root).Runs
            ⟨[], session.world⟩ ms r s' ∧
          ((service.subscribeOperation doc op settings).run.run session).2.world = s'.world) ∧
        ∀ subscription, ((service.subscribeOperation doc op settings).run.run session).1 =
            .ok subscription → ∀ entry ∈ subscription.streams,
          entry.2.cursor.ShowsConstants ∧
          ∀ event : Action σ, (event.job entry.2.cursor).EntersConstants := by
  have hvalues : AreConstant (op.withDefaults settings.vars) :=
    Operation.areConstant_withDefaults hdoc hop hvars
  have hcalls : service.CallsOnly Call.IsConstant doc op settings :=
    (Cursor.carries_isConstant op doc).callsOnly fun concurrent type htype =>
      Operation.isConstant_cursor hvalues hschema (hschema.ofRoot htype)
  refine ⟨hcalls.executed, fun type root hroot => ?_⟩
  obtain ⟨hopened, hruns⟩ := hcalls.subscribed type root hroot
  exact ⟨hopened, fun session => ⟨hruns session, hcalls.events session⟩⟩

namespace Switch

/-- A query that passes a variable on. -/
def passingSource : Text := lit "query($v:Flag=1)\x7ba(on:$v)\x7d"

def root : Node Unit :=
  .mk (lit "Query") (lit "Query") (fun _ _ _ => .value .null) (fun _ => .none) .none

def service : Service Unit := ⟨schema, some root, none, none⟩

theorem constantDefaults : schema.ConstantDefaults := by
  apply Schema.constantDefaults_of_types
  intro entry hentry f hf arg harg v hv
  rcases List.mem_pair.mp hentry with rfl | rfl
  · cases hf
  · obtain rfl := List.mem_singleton.mp hf
    obtain rfl := List.mem_singleton.mp harg
    cases hv

theorem calls_areConstant_passingSource : ∃ doc op,
    Document.ofText schema passingSource = .ok doc ∧ op ∈ doc.operations ∧
    service.root op = .ok (.object query, root) ∧
    (op.job schema doc ⟨[], none, true⟩ (.object query) root).EntersConstants := by
  obtain ⟨doc, op, hdoc, hop, hroot⟩ : ∃ doc op, Document.ofText schema passingSource = .ok doc ∧
      Document.operations doc = [op] ∧ service.root op = .ok (.object query, root) :=
    ⟨_, _, rfl, rfl, rfl⟩
  have hmem : op ∈ doc.operations := by simp [hop]
  have hschema : service.schema.ConstantDefaults := constantDefaults
  have hvars : AreConstant (⟨[], none, true⟩ : Settings).vars := areConstant_nil
  obtain ⟨hexecuted, -⟩ := Service.calls_areConstant hschema hdoc hmem hvars
  exact ⟨doc, op, hdoc, hmem, hroot, (hexecuted _ _ hroot).1⟩

end Switch

end GraphQL
