import GraphQL.Execution.Operation
import GraphQL.Schema.Relations

/-!
Subscriptions: each field of the root gives a stream, and each pull on a stream gives the next event
with the errors of that event.
-/

namespace GraphQL

variable {σ : Type}

/-- A stream from which events are pulled. -/
structure EventStream (σ : Type) where
  cursor : Cursor
  events : Nat → Option (Action σ)
  position : Nat
  exhausted : Bool

structure Event where
  value : Value
  errors : List ExecutionError

namespace EventStream

/-- A stream that has just been opened. -/
def start (c : Cursor) (events : Nat → Option (Action σ)) : EventStream σ := ⟨c, events, 0, false⟩

def single (c : Cursor) (v : Value) : EventStream σ :=
  start c fun i => if i = 0 then some (.value v) else none

/-- Pulls the next event. A stream that gives none is exhausted from then on; one that breaks an
invariant goes on with the event after it. -/
def pull (s : EventStream σ) :
    StateM (Session σ) (EventStream σ × Except Violation (Option Event)) := do
  if s.exhausted then return (s, .ok none)
  match s.events s.position with
  | none => return ({ s with exhausted := true }, .ok none)
  | some action =>
    let (result, errors) ←
      Session.perform ((action.run s.cursor).captured s.cursor s.cursor.location)
    return ({ s with position := s.position + 1 },
      result.map fun v => some ⟨v.getD .null, ExecutionError.sort errors⟩)

end EventStream

structure RootField where
  head : FieldHead
  selections : Option SelectionSet

namespace RootField

/-- How collecting goes on inside a fragment. -/
abbrev Expand := Fragment → Except Violation (List RootField)

mutual

def ofSelection (scope : Scope) (objectName : Text) (expand : Expand) :
    Selection → Except Violation (List RootField)
  | .field head selections => do
    if ← Directives.exclude scope.vars (head.directives.getD []) then return []
    return [⟨head, selections⟩]
  | .spread sp => do
    if ← Directives.exclude scope.vars (sp.directives.getD []) then return []
    let f ← scope.requireFragment sp.name.value
    if ← scope.schema.meetsCondition f.condition.value objectName then expand f else return []
  | .inline head body => do
    if ← Directives.exclude scope.vars (head.directives.getD []) then return []
    match head.condition with
    | none => ofSelections scope objectName expand body
    | some condition =>
      if ← scope.schema.meetsCondition condition.value objectName then
        ofSelections scope objectName expand body
      else return []

/-- The fields of selections, in order. -/
def ofSelections (scope : Scope) (objectName : Text) (expand : Expand) :
    List Selection → Except Violation (List RootField)
  | [] => .ok []
  | s :: rest => do
    let fields ← ofSelection scope objectName expand s
    return fields ++ (← ofSelections scope objectName expand rest)

end

/-- Goes on inside fragments that lie at most `depth` deep in one another. -/
def expandUpTo (scope : Scope) (objectName : Text) : (depth : Nat) → Expand
  | 0, f => .error (.endlessFragment f.name.value)
  | depth + 1, f => ofSelections scope objectName (expandUpTo scope objectName depth) f.selections

/-- The fields of the root with fragments flattened. A document without circles has no more
fragments inside one another than it has fragments. -/
def ofSelectionSet (scope : Scope) (objectName : Text) (selections : SelectionSet) :
    Except Violation (List RootField) :=
  ofSelections scope objectName (expandUpTo scope objectName scope.fragments.length) selections

end RootField

/-- The streams of a subscription by response key, and the errors of opening them. -/
structure Subscription (σ : Type) where
  streams : List (Text × EventStream σ)
  errors : List ExecutionError

namespace SubscriptionRoot

/-- Opens the stream of a field. A stream that fails to open is left out. -/
def openField (root : SubscriptionRoot σ) (c : Cursor) (type : TypeDef) (f : RootField) :
    Run σ (List (Text × EventStream σ)) := do
  let key := f.head.responseName
  let name := f.head.name.value
  if name == lit "__typename" then return [(key, .single c (.ofText root.objectName))]
  match type.field? name with
  | none => throw (.fieldNotFound name type.name)
  | some declaration =>
    let sub ← Run.ofExcept (c.atField ⟨f.head, declaration⟩ f.selections)
    let args := FieldArguments.ofField c.scope.vars f.head declaration.arguments
    let source := root.stream name args sub
    match ← (source.opening.run sub).captured sub sub.location with
    | some _ => return [(key, .start sub source.events)]
    | none => return []

/-- Opens the streams of a root, in the order of the document. -/
def openStreams (root : SubscriptionRoot σ) (c : Cursor) (type : TypeDef)
    (selections : SelectionSet) : Run σ (List (Text × EventStream σ)) := do
  let fields ← Run.ofExcept (RootField.ofSelectionSet c.scope root.objectName selections)
  return (← fields.mapM (root.openField c type)).flatten

end SubscriptionRoot

namespace Service

/-- The type and the value that a subscription starts from. -/
def subscriptionRoot (s : Service σ) (op : Operation) :
    Except Violation (TypeDef × SubscriptionRoot σ) :=
  if op.type = .subscription then
    match s.schema.root? .subscription with
    | none => .error .noSubscriptionType
    | some type => return (type, ← op.requireRoot s.subscription)
  else .error .notSubscription

/-- Opens the streams of a subscription of a document that is known to be valid. They are never
concurrent. -/
def subscribeOperation (s : Service σ) (doc : Document) (op : Operation) (settings : Settings) :
    Engine σ (Subscription σ) := do
  let (type, root) ← Engine.ofExcept (s.subscriptionRoot op)
  Engine.say [⟨.debug, [.text (lit "subscribing"), .text op.label]⟩]
  let c := op.cursor (op.scope s.schema doc { settings with concurrent := false }) type
  match ← Engine.perform (root.openStreams c type op.selections) with
  | (.ok streams, errors) => return ⟨streams, ExecutionError.sort errors⟩
  | (.error v, _) => throw v

end Service

end GraphQL
