import GraphQL.Execution.Resolve
import GraphQL.Proofs.Execution.Plans
import GraphQL.Proofs.Execution.Process

/-! Pure resolvers: what they do depends on the value, the field and its arguments alone, and they
fail only by ending in an error. Execution on such values is a process. -/

namespace GraphQL

mutual

/-- A value with pure resolvers. -/
inductive Instance where
  | mk (typeName objectName : Text) (field : Text → FieldArguments → Answer)
      (into : Text → Substitute) (whole : Substitute)

/-- What takes the place of the selected fields, if anything does. -/
inductive Substitute where
  | none
  | custom (answer : Answer)

inductive Answer where
  | value (v : Value)
  | fail (e : FieldError)
  | resolve (i : Option Instance) (next : Value → Answer)
  | resolveInto (i : Instance) (next : Value → Answer)
  | resolveList (items : List (Option Instance)) (next : Value → Answer)

end

section Nodes

variable {σ : Type}

mutual

def Instance.toNode : Instance → Node σ
  | .mk typeName objectName field into whole =>
    .mk typeName objectName (fun name arguments _ => (field name arguments).toAction)
      (fun condition => (into condition).toOverride) whole.toOverride

def Substitute.toOverride : Substitute → Override σ
  | .none => .none
  | .custom answer => .custom fun _ => answer.toAction

def Answer.toAction : Answer → Action σ
  | .value v => .value v
  | .fail e => .fail e
  | .resolve i next => .resolve (toNode? i) fun v => (next v).toAction
  | .resolveInto i next => .resolveInto i.toNode fun v => (next v).toAction
  | .resolveList items next => .resolveList (toNodes items) fun v => (next v).toAction

def toNode? : Option Instance → Option (Node σ)
  | none => none
  | some i => some i.toNode

def toNodes : List (Option Instance) → List (Option (Node σ))
  | [] => []
  | i :: rest => toNode? i :: toNodes rest

end

end Nodes

namespace Process

/-- Goes on from how a process ends. -/
def andThen (k : Ending → Process) : Process → Process
  | finish r => k r
  | record e rest => record e (rest.andThen k)
  | fork serial stop tasks next => fork serial stop tasks fun x => (next x).andThen k

def bind (p : Process) (k : Value → Process) : Process :=
  p.andThen fun
    | .ok v => k v
    | .error r => finish (.error r)

def captured (p : Process) (c : Cursor) (location : Position) : Process :=
  p.andThen fun
    | .error (.failure e) => record ⟨location, c.path.segments, e⟩ (finish (.ok .null))
    | r => finish r

@[simp] theorem result_andThen : ∀ (k : Ending → Process) (p : Process),
    (p.andThen k).result = (k p.result).result
  | _, finish _ => rfl
  | k, record _ rest => result_andThen k rest
  | k, fork _ stop tasks next => result_andThen k (next (joined stop (results tasks)))

@[simp] theorem errors_andThen (concurrent : Bool) : ∀ (k : Ending → Process) (p : Process),
    (p.andThen k).errors concurrent = p.errors concurrent ++ (k p.result).errors concurrent
  | _, finish _ => rfl
  | k, record e rest => by
    simp only [andThen, errors, result, errors_andThen concurrent k rest, List.cons_append]
  | k, fork serial stop tasks next => by
    simp only [andThen, errors, result,
      errors_andThen concurrent k (next (joined stop (results tasks))), List.append_assoc]

theorem result_bind_of_ok {p : Process} {v : Value} (h : p.result = .ok v) (k : Value → Process) :
    (p.bind k).result = (k v).result := by
  rw [bind, result_andThen, h]

theorem unbroken_of_bind {p : Process} {k : Value → Process}
    (h : ∀ v, (p.bind k).result ≠ .error (.violation v)) (v : Violation) :
    p.result ≠ .error (.violation v) := by
  intro hv
  refine h v ?_
  rw [bind, result_andThen, hv]
  rfl

theorem unbroken_next {p : Process} {k : Value → Process} {w : Value}
    (h : ∀ v, (p.bind k).result ≠ .error (.violation v)) (hw : p.result = .ok w) (v : Violation) :
    (k w).result ≠ .error (.violation v) :=
  result_bind_of_ok hw k ▸ h v

/-- How fields of an object are resolved, as processes. -/
structure Handlers where
  objectName : Text
  field : FieldTask → Process
  into : Text → Cursor → Option Process

end Process

def Plan.stop? : Plan → Option Violation
  | .done => none
  | .stop v => some v
  | .step _ rest => rest.stop?

theorem Plan.stop_tasks {σ : Type} (h : Subject.Handlers σ) (concurrent : Bool) :
    ∀ p : Plan, (p.tasks h concurrent).stop = p.stop?
  | .done => rfl
  | .stop _ => rfl
  | .step _ rest => stop_tasks h concurrent rest

mutual

def Step.process (h : Process.Handlers) (serial : Bool) : Step → Process
  | .typename key => .finish (.ok (.object [(key, .ofText h.objectName)]))
  | .field t => ((h.field t).captured t.cursor t.location).bind fun v =>
    .finish (.ok (if t.nonNull && v.isNull then .null else .object [(t.key, v)]))
  | .splice plan => .fork serial (plan ()).stop? ((plan ()).processes h serial)
    fun x => .finish (.ofOutcome x)
  | .narrow n plan =>
    match h.into n.condition n.cursor with
    | some p => (p.captured n.cursor n.location).bind fun v =>
      .finish (.ok (.object (Value.fieldsOrNone (some v))))
    | none => (Process.fork serial (plan ()).stop? ((plan ()).processes h serial)
      fun x => .finish (.ofOutcome x)).bind fun v =>
        .finish (.ok (.object (Value.fieldsOrNone (some v))))

def Plan.processes (h : Process.Handlers) (serial : Bool) : Plan → List Process
  | .done => []
  | .stop _ => []
  | .step s rest => s.process h serial :: rest.processes h serial

end

/-- The process of a plan: its tasks, joined to an object or null. -/
def Plan.process (h : Process.Handlers) (serial : Bool) (p : Plan) : Process :=
  .fork serial p.stop? (p.processes h serial) fun x => .finish (.ofOutcome x)

def Value.ofItems? : Option (List Value) → Value
  | some items => .list items
  | none => .null

/-- A value before the items of a list, unless the list is nulled. -/
def Value.consItem (v : Value) : Value → Value
  | .list items => .list (v :: items)
  | _ => .null

/-- The items of a list, as a list or null: the first, and then the others. -/
theorem resolveItems_cons {σ : Type} (stopOnNull : Bool) (node : Option (Node σ))
    (rest : List (Option (Node σ))) (i : Nat) (c : Cursor) :
    (do return Value.ofItems? (← resolveItems stopOnNull (node :: rest) i c) : Resolve σ Value) =
      resolveItem node (c.atIndex i) >>= fun v => if stopOnNull && v.isNull then return .null
        else (do return Value.ofItems? (← resolveItems stopOnNull rest (i + 1) c)) >>=
          fun items => return v.consItem items := by
  rw [resolveItems]
  simp only [bind_assoc]
  congr 1
  funext v
  split
  · rfl
  · simp only [bind_assoc, pure_bind]
    congr 1
    funext items
    cases items <;> rfl

theorem Action.run_resolveList {σ : Type} {c : Cursor} {element : TypePosition}
    (hlist : c.currentType.element? = some element) (nodes : List (Option (Node σ)))
    (next : Value → Action σ) :
    (Action.resolveList nodes next).run c =
      (do return Value.ofItems? (← resolveItems element.isNonNull nodes 0 c)) >>= fun v =>
        (next v).run c := by
  rw [Action.run, hlist]
  simp only [bind_assoc, pure_bind]
  congr 1
  funext items
  cases items <;> rfl

mutual

/-- The process of resolving what is selected at a cursor on a value. -/
def Instance.process : Instance → Cursor → Process
  | .mk typeName objectName field into whole, c =>
    match whole.process? c with
    | some p => p
    | none =>
      match c.selections with
      | none => .finish (.error (.violation (.noSelectionSet typeName)))
      | some selections =>
        match c.scope.schema.requireType typeName with
        | .error v => .finish (.error (.violation v))
        | .ok type => (Plan.ofSelectionSet ⟨type, objectName⟩ c selections).process
          ⟨objectName, fun t => (field t.name t.arguments).process t.cursor,
            fun condition c => (into condition).process? c⟩ c.serial

def Substitute.process? : Substitute → Cursor → Option Process
  | .none, _ => none
  | .custom answer, c => some (answer.process c)

def Answer.process : Answer → Cursor → Process
  | .value v, _ => .finish (.ok v)
  | .fail e, _ => .finish (.error (.failure e))
  | .resolve i next, c => (processPresent i c).bind fun v => (next v).process c
  | .resolveInto i next, c => ((i.process c).captured c c.location).bind fun v =>
    (next v).process c
  | .resolveList items next, c =>
    match c.currentType.element? with
    | none => .finish (.error (.violation (.notList c.currentType.toText)))
    | some element => (processItems element.isNonNull items 0 c).bind fun v => (next v).process c

def processPresent : Option Instance → Cursor → Process
  | none, _ => .finish (.error (.failure (.ofText (lit "Resolved a missing value"))))
  | some i, c => i.process c

def processItem : Option Instance → Cursor → Process
  | none, _ => .finish (.ok .null)
  | some i, c => (i.process c).captured c c.location

def processItems (stopOnNull : Bool) : List (Option Instance) → Nat → Cursor → Process
  | [], _, _ => .finish (.ok (.list []))
  | i :: rest, n, c => (processItem i (c.atIndex n)).bind fun v =>
    if stopOnNull && v.isNull then .finish (.ok .null)
    else (processItems stopOnNull rest (n + 1) c).bind fun items =>
      .finish (.ok (v.consItem items))

end

end GraphQL
