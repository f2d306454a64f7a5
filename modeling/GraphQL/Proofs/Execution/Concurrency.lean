import GraphQL.Execution.Operation
import GraphQL.Proofs.Execution.ErrorOrder
import GraphQL.Proofs.Execution.Purity

/-! Concurrent and serial execution of operations on values with pure resolvers. The data are the
same. The errors are the same up to those of fields that serial execution never gets to, because a
field before them has nulled their object. -/

namespace GraphQL

variable {σ : Type}

section Modes

variable {concurrent : Bool} {h : Process.Handlers}

mutual

theorem Step.process_inMode (hfield : ∀ t, h.field (t.inMode concurrent) = h.field t)
    (hinto : ∀ condition c, h.into condition (c.inMode concurrent) = h.into condition c)
    (serial : Bool) : ∀ s : Step, (s.inMode concurrent).process h serial = s.process h serial
  | .typename _ => rfl
  | .field t => by
    unfold Step.inMode Step.process
    rw [hfield]
    rfl
  | .splice plan => by
    obtain ⟨hprocesses, hstop⟩ := Plan.processes_inMode hfield hinto serial (plan ())
    simp only [Step.inMode, Step.process, hprocesses, hstop]
  | .narrow n plan => by
    obtain ⟨hprocesses, hstop⟩ := Plan.processes_inMode hfield hinto serial (plan ())
    have hn : h.into (n.inMode concurrent).condition (n.inMode concurrent).cursor =
        h.into n.condition n.cursor := hinto n.condition n.cursor
    simp only [Step.inMode, Step.process, hprocesses, hstop, hn]
    rfl

theorem Plan.processes_inMode (hfield : ∀ t, h.field (t.inMode concurrent) = h.field t)
    (hinto : ∀ condition c, h.into condition (c.inMode concurrent) = h.into condition c)
    (serial : Bool) : ∀ p : Plan,
      (p.inMode concurrent).processes h serial = p.processes h serial ∧
        (p.inMode concurrent).stop? = p.stop?
  | .done => ⟨rfl, rfl⟩
  | .stop _ => ⟨rfl, rfl⟩
  | .step s rest => by
    obtain ⟨hprocesses, hstop⟩ := Plan.processes_inMode hfield hinto serial rest
    have hs := Step.process_inMode hfield hinto serial s
    exact ⟨by simp only [Plan.inMode, Plan.processes, hs, hprocesses], hstop⟩

end

theorem Plan.process_inMode (hfield : ∀ t, h.field (t.inMode concurrent) = h.field t)
    (hinto : ∀ condition c, h.into condition (c.inMode concurrent) = h.into condition c)
    (serial : Bool) (p : Plan) :
    (p.inMode concurrent).process h serial = p.process h serial := by
  obtain ⟨hprocesses, hstop⟩ := processes_inMode hfield hinto serial p
  simp only [process, hprocesses, hstop]

theorem Cursor.atIndex_inMode (c : Cursor) (i : Nat) :
    (c.inMode concurrent).atIndex i = (c.atIndex i).inMode concurrent := rfl

mutual

theorem Instance.process_inMode : ∀ (i : Instance) (c : Cursor),
    i.process (c.inMode concurrent) = i.process c
  | .mk typeName objectName field into whole, c => by
    unfold Instance.process
    rw [Substitute.process?_inMode whole c]
    have hplan (p : Plan) : (p.inMode concurrent).process ⟨objectName,
          fun t => (field t.name t.arguments).process t.cursor,
          fun condition c => (into condition).process? c⟩ c.serial = p.process _ c.serial :=
      Plan.process_inMode (fun t => Answer.process_inMode (field t.name t.arguments) t.cursor)
        (fun condition c => Substitute.process?_inMode (into condition) c) c.serial p
    have hselections : (c.inMode concurrent).selections = c.selections := rfl
    have hschema : (c.inMode concurrent).scope.schema = c.scope.schema := rfl
    have hserial : (c.inMode concurrent).serial = c.serial := rfl
    simp only [hselections, hschema, hserial, Plan.ofSelectionSet_inMode, hplan]

theorem Substitute.process?_inMode : ∀ (i : Substitute) (c : Cursor),
    i.process? (c.inMode concurrent) = i.process? c
  | .none, _ => rfl
  | .custom answer, c => congrArg some (Answer.process_inMode answer c)

theorem Answer.process_inMode : ∀ (a : Answer) (c : Cursor),
    a.process (c.inMode concurrent) = a.process c
  | .value _, _ => rfl
  | .fail _, _ => rfl
  | .resolve i next, c => by
    simp only [Answer.process, processPresent_inMode i c,
      fun v => Answer.process_inMode (next v) c]
  | .resolveInto i next, c => by
    simp only [Answer.process, Instance.process_inMode i c,
      fun v => Answer.process_inMode (next v) c]
    rfl
  | .resolveList items next, c => by
    simp only [Answer.process, fun stopOnNull => processItems_inMode stopOnNull items 0 c,
      fun v => Answer.process_inMode (next v) c]
    rfl

theorem processPresent_inMode : ∀ (i : Option Instance) (c : Cursor),
    processPresent i (c.inMode concurrent) = processPresent i c
  | none, _ => rfl
  | some i, c => Instance.process_inMode i c

theorem processItem_inMode : ∀ (i : Option Instance) (c : Cursor),
    processItem i (c.inMode concurrent) = processItem i c
  | none, _ => rfl
  | some i, c => by
    simp only [processItem, Instance.process_inMode i c]
    rfl

theorem processItems_inMode (stopOnNull : Bool) : ∀ (items : List (Option Instance)) (n : Nat)
    (c : Cursor), processItems stopOnNull items n (c.inMode concurrent) =
      processItems stopOnNull items n c
  | [], _, _ => rfl
  | i :: rest, n, c => by
    simp only [processItems, Cursor.atIndex_inMode, processItem_inMode i (c.atIndex n),
      processItems_inMode stopOnNull rest (n + 1) c]

end

end Modes

/-- The process of an operation that starts from a value with pure resolvers. -/
def Operation.process (op : Operation) (schema : Schema) (doc : Document) (settings : Settings)
    (type : TypeDef) (i : Instance) : Process :=
  let c := op.cursor (op.scope schema doc settings) type
  (i.process c).captured c c.location

/-- What a request gives that ends in a certain way with certain errors recorded. -/
def Ending.toOutput (errors : List ExecutionError) : Ending → Except Violation Output
  | .ok data => .ok ⟨data, ExecutionError.sort errors⟩
  | .error (.failure _) => .ok ⟨.null, ExecutionError.sort errors⟩
  | .error (.violation v) => .error v

namespace Service

variable {service : Service σ} {op : Operation} {type : TypeDef} {i : Instance}

theorem process_inMode (op : Operation) (type : TypeDef) (i : Instance) (schema : Schema)
    (doc : Document) (vars : Variables) (context : Option Text) (concurrent : Bool) :
    op.process schema doc ⟨vars, context, concurrent⟩ type i =
      op.process schema doc ⟨vars, context, false⟩ type i := by
  have hcursor : op.cursor (op.scope schema doc ⟨vars, context, concurrent⟩) type =
      (op.cursor (op.scope schema doc ⟨vars, context, false⟩) type).inMode concurrent := by
    unfold Operation.cursor
    split <;> rfl
  unfold Operation.process
  simp only [hcursor, Instance.process_inMode]
  rfl

/-- Executing an operation is a run of its process, in the order of the document. -/
theorem executeOperation_eq_toOutput (hroot : service.root op = .ok (type, i.toNode))
    (doc : Document) (settings : Settings) (session : Session σ) :
    ((service.executeOperation doc op settings).run.run session).1 =
      (op.process service.schema doc settings type i).result.toOutput
        ((op.process service.schema doc settings type i).errors settings.concurrent) := by
  have hmode : (op.cursor (op.scope service.schema doc settings) type).scope.concurrent =
      settings.concurrent := by
    unfold Operation.cursor
    split <;> rfl
  rw [run_executeOperation hroot]
  unfold Operation.process
  generalize op.cursor (op.scope service.schema doc settings) type = c at *
  obtain ⟨r, hr, hresult⟩ := (Instance.follows (σ := σ) i c hmode).captured c c.location
  have hresolve : Appends (i.toNode.resolveInto c : Run σ Value) (r.map (·.getD .null))
      (((i.process c).captured c c.location).errors settings.concurrent) := by
    unfold Node.resolveInto
    cases r with
    | ok o =>
      have hvalue := hr.bind_ok (f := fun o => (pure (o.getD .null) : Run σ Value)) (.pure _)
      rwa [List.append_nil] at hvalue
    | error v => exact hr.bind_error
  have hended := hresolve ⟨[], session.world⟩
  simp only [hended, hresult, List.nil_append]
  cases r with
  | ok o => rfl
  | error v => rfl

/-- Executing an operation on a value with pure resolvers, once with its tasks in turn and once with
them side by side in any order. Both break off in the same way, or both give the same data; then side
by side the errors are those in turn and, besides, those of the tasks that are skipped in turn. So
the two give the same list of errors exactly when no skipped task fails. -/
theorem executeOperation_concurrent_iff (hroot : service.root op = .ok (type, i.toNode))
    (doc : Document) (vars : Variables) (context : Option Text) (session : Session σ)
    {errors : List ExecutionError} {r : Ending}
    (hrun : (op.process service.schema doc ⟨vars, context, true⟩ type i).Runs true errors r) :
    (∃ v, ((service.executeOperation doc op ⟨vars, context, false⟩).run.run session).1 = .error v ∧
      r.toOutput errors = .error v) ∨
    ∃ serial concurrent,
      ((service.executeOperation doc op ⟨vars, context, false⟩).run.run session).1 = .ok serial ∧
      r.toOutput errors = .ok concurrent ∧ concurrent.data = serial.data ∧
      concurrent.errors.Perm (serial.errors ++
        (op.process service.schema doc ⟨vars, context, true⟩ type i).skipped) ∧
      (concurrent.errors.map ExecutionError.key = serial.errors.map ExecutionError.key ↔
        (op.process service.schema doc ⟨vars, context, true⟩ type i).skipped = []) ∧
      (ExecutionError.Distinguished concurrent.errors →
        (concurrent = serial ↔
          (op.process service.schema doc ⟨vars, context, true⟩ type i).skipped = [])) := by
  have hmode := process_inMode op type i service.schema doc vars context true
  rw [executeOperation_eq_toOutput hroot]
  rw [hmode] at hrun ⊢
  generalize op.process service.schema doc ⟨vars, context, false⟩ type i = p at *
  obtain ⟨rfl, hperm⟩ := hrun.preserves
  have hall : errors.Perm (p.errors false ++ p.skipped) := hperm.trans p.errors_perm
  have hsame (data : Value) :
      (⟨data, ExecutionError.sort errors⟩ : Output) = ⟨data, ExecutionError.sort (p.errors false)⟩ ↔
        ExecutionError.sort errors = ExecutionError.sort (p.errors false) := by
    simp
  -- a violation breaks both off; a failure of the root is null data
  rcases p.result with (e | v) | data
  · exact .inr ⟨_, _, rfl, rfl, rfl, ExecutionError.sort_perm_append hall,
      ExecutionError.map_key_sort_eq_iff hall,
      fun hd => (hsame .null).trans (ExecutionError.sort_eq_iff hall hd)⟩
  · exact .inl ⟨v, rfl, rfl⟩
  · exact .inr ⟨_, _, rfl, rfl, rfl, ExecutionError.sort_perm_append hall,
      ExecutionError.map_key_sort_eq_iff hall,
      fun hd => (hsame data).trans (ExecutionError.sort_eq_iff hall hd)⟩

end Service

namespace Siblings

def query : ObjectDef :=
  ⟨lit "Query", none, [⟨lit "a", none, none, .named (lit "Int") true, .current⟩,
    ⟨lit "b", none, none, .named (lit "Int") true, .current⟩], []⟩

def schema : Schema :=
  ⟨[(lit "Int", .scalar Scalars.int), (lit "Query", .object query)], lit "Query", none, none, [],
    none⟩

def root : Instance :=
  .mk (lit "Query") (lit "Query") (fun name _ => .fail (.ofText (lit "no " ++ name)))
    (fun _ => .none) .none

def service : Service Unit := ⟨schema, some root.toNode, none, none⟩

def operation : Operation :=
  ⟨.query, none, none, none, [.ofName (lit "a") none, .ofName (lit "b") none], .unlocated⟩

theorem skipped_ne_nil : (operation.process schema [.operation operation] ⟨[], none, true⟩
    (.object query) root).skipped ≠ [] := by
  have h : (operation.process schema [.operation operation] ⟨[], none, true⟩ (.object query)
    root).skipped.length = 1 := rfl
  intro hnil
  simp [hnil] at h

theorem errors_ne : ∃ serial concurrent,
    ((service.executeOperation [.operation operation] operation ⟨[], none, false⟩).run.run
      ⟨[], ()⟩).1 = .ok serial ∧
    ((service.executeOperation [.operation operation] operation ⟨[], none, true⟩).run.run
      ⟨[], ()⟩).1 = .ok concurrent ∧
    concurrent.errors.map ExecutionError.key ≠ serial.errors.map ExecutionError.key := by
  have hroot : service.root operation = .ok (.object query, root.toNode) := rfl
  have hrun : Process.Runs true (operation.process service.schema [.operation operation]
    ⟨[], none, true⟩ (.object query) root) _ _ := Process.runs_errors _
  rcases Service.executeOperation_concurrent_iff hroot [.operation operation] [] none ⟨[], ()⟩ hrun
    with ⟨v, hserial, _⟩ | ⟨serial, concurrent, hserial, hconcurrent, -, -, hiff, -⟩
  · rw [Service.executeOperation_eq_toOutput hroot] at hserial
    exact nomatch hserial
  · refine ⟨serial, concurrent, hserial, ?_, fun h => skipped_ne_nil (hiff.mp h)⟩
    rw [Service.executeOperation_eq_toOutput hroot]
    exact hconcurrent

end Siblings

end GraphQL
