import GraphQL.Console
import GraphQL.Execution.Effects

/-!
A session: the world that resolvers live in while one request after another is executed, and the
messages that execution gives out meanwhile.
-/

namespace GraphQL

/-- The messages given out so far, and the world. -/
structure Session (σ : Type) where
  messages : List Console.Message
  world : σ

/-- A computation in a session that only a broken invariant ends early. -/
abbrev Engine (σ : Type) := ExceptT Violation (StateM (Session σ))

/-- The message about a schema when it is built. -/
def Schema.built (s : Schema) : Console.Message :=
  ⟨.debug, [.text (lit "schema built:"), .integer s.types.length, .text (lit "types, query ="),
    .text s.queryName, .text (lit "mutation ="), .text (s.mutationName.getD (lit "-")),
    .text (lit "subscription ="), .text (s.subscriptionName.getD (lit "-"))]⟩

/-- The message about an error when it is recorded. -/
def ExecutionError.notice (e : ExecutionError) : Console.Message :=
  ⟨.debug, [.text (lit "field error at"), .text e.path.toText, .text (lit "-"), .text e.message]⟩

namespace Session

variable {σ : Type}

def say (messages : List Console.Message) : StateM (Session σ) Unit :=
  modify fun s => { s with messages := s.messages ++ messages }

/-- Runs a computation that starts without errors, and tells how it ends and which errors it
records. -/
def perform {α : Type} (x : Run σ α) :
    StateM (Session σ) (Except Violation α × List ExecutionError) := do
  let (result, effects) := x.run.run ⟨[], (← get).world⟩
  modify fun s => ⟨s.messages ++ effects.errors.map ExecutionError.notice, effects.world⟩
  return (result, effects.errors)

end Session

namespace Engine

variable {σ : Type}

def say (messages : List Console.Message) : Engine σ Unit := ExceptT.lift (Session.say messages)

/-- Runs a computation that starts without errors, and tells how it ends and which errors it
records. -/
def perform {α : Type} (x : Run σ α) : Engine σ (Except Violation α × List ExecutionError) :=
  ExceptT.lift (Session.perform x)

/-- What may break an invariant but has no effects. -/
def ofExcept {α : Type} (x : Except Violation α) : Engine σ α := ExceptT.mk (pure x)

end Engine

end GraphQL
