import GraphQL.Execution.Effects
import GraphQL.Execution.Plan
import GraphQL.Value.Merge

/-!
Resolving a selection set. Every step of its plan is a task that gives fields or nulls the object;
the fields of all tasks are merged in the order of the document. Tasks run one after another up to
the first that nulls the object, or all of them side by side.
-/

namespace GraphQL

variable {σ : Type}

/-- The fields that a task gives, or nothing if it nulls the object. -/
abbrev Outcome := Option (Keyed Value)

/-- An outcome as a value. -/
def Outcome.toValue : Outcome → Value
  | some fields => .object fields
  | none => .null

/-- The tasks of a plan in order, and the invariant at which planning stopped. -/
structure Tasks (σ : Type) where
  inOrder : List (Run σ Outcome)
  stop : Option Violation

namespace Tasks

/-- Puts a task before all others. -/
def cons (task : Run σ Outcome) (tasks : Tasks σ) : Tasks σ :=
  { tasks with inOrder := task :: tasks.inOrder }

/-- Runs tasks one after another and merges what they give. -/
def runInTurn : List (Run σ Outcome) → Keyed Value → Run σ Outcome
  | [], merged => return some merged
  | task :: rest, merged => do
    match ← task with
    | some fields => runInTurn rest (Value.mergeFields fields merged)
    | none => return none

/-- Merges what tasks gave. The first one that broke an invariant or nulls the object decides. -/
def merge : List (Except Violation Outcome) → Keyed Value → Except Violation Outcome
  | [], merged => .ok (some merged)
  | .ok (some fields) :: rest, merged => merge rest (Value.mergeFields fields merged)
  | .ok none :: _, _ => .ok none
  | .error v :: _, _ => .error v

/-- Runs all tasks and then merges what they gave. Where planning stopped, they run all the same. -/
def runSideBySide (tasks : Tasks σ) : Run σ Outcome :=
  ExceptT.mk do
    let outcomes ← tasks.inOrder.mapM ExceptT.run
    match tasks.stop with
    | some v => return .error v
    | none => return merge outcomes []

/-- Runs tasks one after another or side by side. Where planning stopped, none of them runs in
turn. -/
def run (concurrent : Bool) (tasks : Tasks σ) : Run σ Outcome :=
  if concurrent then tasks.runSideBySide
  else match tasks.stop with
    | some v => throw v
    | none => runInTurn tasks.inOrder []

end Tasks

/-- An object as selections see it: its types, how a field is resolved, and what resolves it as
another type if that is not left to the selections. -/
structure Subject.Handlers (σ : Type) where
  typeName : Text
  objectName : Text
  field : FieldTask → Resolve σ Value
  into : Text → Cursor → Option (Resolve σ Value)

/-- The fields of an object; anything else gives none. -/
def Value.fieldsOrNone : Option Value → Keyed Value
  | some (.object fields) => fields
  | _ => []

mutual

/-- Runs a step. A field that refuses null nulls the object instead; an inline fragment with a
condition that does not give an object gives nothing. -/
def Step.run (h : Subject.Handlers σ) (concurrent : Bool) : Step → Run σ Outcome
  | .typename key => return some [(key, .ofText h.objectName)]
  | .field task => do
    let v := (← (h.field task).captured task.cursor task.location).getD .null
    return if task.nonNull && v.isNull then none else some [(task.key, v)]
  | .splice plan => ((plan ()).tasks h concurrent).run concurrent
  | .narrow n plan => do
    match h.into n.condition n.cursor with
    | some x => return some (Value.fieldsOrNone (← x.captured n.cursor n.location))
    | none => return some ((← ((plan ()).tasks h concurrent).run concurrent).getD [])

/-- The tasks of a plan. A task looks into its step when it runs. -/
def Plan.tasks (h : Subject.Handlers σ) (concurrent : Bool) : Plan → Tasks σ
  | .done => ⟨[], none⟩
  | .stop v => ⟨[], some v⟩
  | .step s rest => (rest.tasks h concurrent).cons (Run.later fun _ => s.run h concurrent)

end

def Cursor.resolveSelections (c : Cursor) (h : Subject.Handlers σ) (selections : SelectionSet) :
    Run σ Value := do
  let type ← Run.ofExcept (c.scope.schema.requireType h.typeName)
  let plan := Plan.ofSelectionSet ⟨type, h.objectName⟩ c selections
  return (← (plan.tasks h c.isConcurrent).run c.isConcurrent).toValue

end GraphQL
