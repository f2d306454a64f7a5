import GraphQL.Proofs.Document.Variables
import GraphQL.Proofs.Execution.Runs
import GraphQL.Request

/-! Requests from their source to the operation that they mean: a valid document goes through
without a message, and what is left is the execution of the operation. -/

namespace GraphQL

variable {σ α β : Type}

/-- Handling in turn: the second part starts where the first one ended, if it did not fail. -/
theorem Handling.run_bind (x : Handling σ α) (f : α → Handling σ β) (session : Session σ) :
    (x >>= f).run.run.run session = match x.run.run.run session with
      | (.ok (.ok a), t) => (f a).run.run.run t
      | (.ok (.error e), t) => (.ok (.error e), t)
      | (.error v, t) => (.error v, t) := by
  have hbind : (x >>= f).run = x.run >>= ExceptT.bindCont f := rfl
  rw [hbind, GraphQL.run_bind]
  rcases x.run.run.run session with ⟨v | e | a, t⟩ <;> rfl

theorem Handling.fst_run_lift (x : Engine σ α) (session : Session σ) :
    ((ExceptT.lift x : Handling σ α).run.run.run session).1 =
      (x.run.run session).1.map .ok := by
  have hlift : (ExceptT.lift x : Handling σ α).run = x >>= fun a => pure (.ok a) := rfl
  rw [hlift, GraphQL.run_bind]
  rcases x.run.run session with ⟨v | a, t⟩ <;> rfl

theorem Document.mem_of_selectOperation {doc : Document} {name : Option Text} {op : Operation}
    (h : doc.selectOperation name = .ok op) : op ∈ doc.operations := by
  cases name with
  | none =>
    simp only [selectOperation, onlyOperation] at h
    split at h
    · cases h
    · rename_i found hfound
      obtain rfl := Except.ok.inj h
      simp [hfound]
    · cases h
  | some name =>
    simp only [selectOperation, operationNamed] at h
    split at h
    · rename_i found hfound
      obtain rfl := Except.ok.inj h
      exact List.mem_reverse.mp (List.mem_of_find?_eq_some hfound)
    · cases h

namespace Service

variable {service : Service σ} {source : Text} {options : RequestOptions} {doc : Document}
  {op : Operation}

/-- Execution gives variables their defaults in any case. -/
theorem executeOperation_settled (service : Service σ) (doc : Document) (op : Operation)
    (settings : Settings) :
    service.executeOperation doc op (op.settled settings) =
      service.executeOperation doc op settings := by
  have hscope : op.scope service.schema doc (op.settled settings) =
      op.scope service.schema doc settings := by
    simp only [Operation.scope, Operation.settled, Operation.withDefaults_withDefaults]
  unfold executeOperation executing
  rw [hscope]
  rfl

theorem subscribeOperation_settled (service : Service σ) (doc : Document) (op : Operation)
    (settings : Settings) :
    service.subscribeOperation doc op (op.settled settings) =
      service.subscribeOperation doc op settings := by
  have hscope : op.scope service.schema doc { op.settled settings with concurrent := false } =
      op.scope service.schema doc { settings with concurrent := false } := by
    simp only [Operation.scope, Operation.settled, Operation.withDefaults_withDefaults]
  unfold subscribeOperation
  rw [hscope]

theorem run_parse (hdoc : Document.ofText service.schema source = .ok doc) (session : Session σ) :
    (service.parse source).run.run.run session = (.ok (.ok doc), session) := by
  unfold parse
  rw [hdoc]
  rfl

/-- A valid document goes through without a message. -/
theorem run_prepare (hvalidator : options.validator = some Rules.builtin)
    (hvalid : Validator.isValid Rules.builtin service.schema doc = true)
    (hop : doc.selectOperation options.operationName = .ok op) (session : Session σ) :
    (service.prepare doc options).run.run.run session = (.ok (.ok op), session) := by
  have hnone : Validator.validate Rules.builtin service.schema doc = [] :=
    List.isEmpty_iff.mp hvalid
  have hsay : (Handling.say (Validator.messages []) : Handling σ Unit).run.run.run session =
      (.ok (.ok ()), session) := by
    show (_, (⟨session.messages ++ [], session.world⟩ : Session σ)) = _
    rw [List.append_nil]
  unfold prepare
  simp only [hvalidator, hnone, Handling.run_bind]
  rw [hsay, hop]
  rfl

/-- A valid request is the execution of the operation that it means. -/
theorem run_execute (hdoc : Document.ofText service.schema source = .ok doc)
    (hvalidator : options.validator = some Rules.builtin)
    (hvalid : Validator.isValid Rules.builtin service.schema doc = true)
    (hop : doc.selectOperation options.operationName = .ok op) (session : Session σ) :
    ((service.execute source options).run.run.run session).1 =
      if op.type = .subscription then .ok (.error .isSubscription)
      else ((service.executeOperation doc op options.settings).run.run session).1.map .ok := by
  unfold execute executeDocument
  simp only [Handling.run_bind, run_parse hdoc, run_prepare hvalidator hvalid hop,
    executeOperation_settled]
  split
  · rfl
  · exact Handling.fst_run_lift _ _

theorem run_subscribe (hdoc : Document.ofText service.schema source = .ok doc)
    (hvalidator : options.validator = some Rules.builtin)
    (hvalid : Validator.isValid Rules.builtin service.schema doc = true)
    (hop : doc.selectOperation options.operationName = .ok op) (session : Session σ) :
    ((service.subscribe source options).run.run.run session).1 =
      if op.type = .subscription then
        ((service.subscribeOperation doc op options.settings).run.run session).1.map .ok
      else .ok (.error .notSubscription) := by
  unfold subscribe
  simp only [Handling.run_bind, run_parse hdoc, run_prepare hvalidator hvalid hop,
    subscribeOperation_settled]
  split
  · exact Handling.fst_run_lift _ _
  · rfl

end Service

end GraphQL
