import GraphQL.Execution.Resolve
import GraphQL.Session

/-!
Executing queries and mutations.
-/

namespace GraphQL

/-- A stream of a field of the subscription root: what is done when it is opened, and what gives
each event until there are no more. -/
structure EventSource (σ : Type) where
  opening : Action σ
  events : Nat → Option (Action σ)

structure SubscriptionRoot (σ : Type) where
  typeName : Text
  objectName : Text
  stream : Text → FieldArguments → Cursor → EventSource σ

/-- A schema with the values that operations start from. -/
structure Service (σ : Type) where
  schema : Schema
  query : Option (Node σ)
  mutation : Option (Node σ)
  subscription : Option (SubscriptionRoot σ)

/-- What an operation is executed with besides its document. -/
structure Settings where
  vars : Variables
  context : Option Text
  concurrent : Bool

/-- The data of a response and the errors of its fields, in order. -/
structure Output where
  data : Value
  errors : List ExecutionError

namespace Operation

/-- Settings in which the variables that are not supplied have their defaults. -/
def settled (op : Operation) (settings : Settings) : Settings :=
  { settings with vars := op.withDefaults settings.vars }

/-- The scope in which an operation of a document is executed. -/
def scope (op : Operation) (schema : Schema) (doc : Document) (settings : Settings) : Scope :=
  ⟨schema, doc.fragments, op.withDefaults settings.vars, settings.context, settings.concurrent⟩

/-- The cursor at the root of an operation. The root fields of a mutation are resolved one after
another. -/
def cursor (op : Operation) (scope : Scope) (type : TypeDef) : Cursor :=
  let c := Cursor.root scope op.selections type op.span.start
  if op.type = .mutation then c.serialized else c

/-- The value that an operation starts from, if there is one. -/
def requireRoot {α : Type} (op : Operation) : Option α → Except Violation α
  | some root => .ok root
  | none => .error (.noRootValue op.label)

end Operation

namespace Service

variable {σ : Type}

/-- The type and the value that a query or mutation starts from. -/
def root (s : Service σ) (op : Operation) : Except Violation (TypeDef × Node σ) :=
  match op.type with
  | .query => do
    let type ← s.schema.requireType s.schema.queryName
    return (type, ← op.requireRoot s.query)
  | .mutation =>
    match s.schema.root? .mutation with
    | none => .error .noMutationType
    | some type => return (type, ← op.requireRoot s.mutation)
  | .subscription => .error .subscriptionExecuted

/-- The message about an operation that is executed. -/
def executing (op : Operation) (settings : Settings) : Console.Message :=
  ⟨.debug, [.text (lit "executing"), .text op.label,
    .text (if settings.concurrent then lit "(concurrent)" else [])]⟩

/-- The message about an operation that is broken off. -/
def aborted (v : Violation) : Console.Message :=
  ⟨.error, [.text (lit "execution aborted:"), .text v.message.untilNul]⟩

/-- Breaks off an operation. -/
def abort {α : Type} (v : Violation) : Engine σ α := do
  Engine.say [aborted v]
  throw v

/-- Executes a query or mutation of a document that is known to be valid. -/
def executeOperation (s : Service σ) (doc : Document) (op : Operation) (settings : Settings) :
    Engine σ Output := do
  match s.root op with
  | .error v => abort v
  | .ok (type, node) =>
    Engine.say [executing op settings]
    let c := op.cursor (op.scope s.schema doc settings) type
    match ← Engine.perform (node.resolveInto c) with
    | (.ok data, errors) => return ⟨data, ExecutionError.sort errors⟩
    | (.error v, _) => abort v

end Service

end GraphQL
