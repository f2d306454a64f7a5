import GraphQL.Execution.Cursor

/-!
What execution leaves behind besides its result, and how it ends early: a failure ends one field and
is recorded, a broken invariant ends everything.
-/

namespace GraphQL

/-- The errors recorded so far, in the order they were, and the world of the resolvers. -/
structure Effects (σ : Type) where
  errors : List ExecutionError
  world : σ

/-- Why a resolver ends without a value. -/
inductive Raise where
  | failure (e : FieldError)
  | violation (v : Violation)

/-- A computation that only a broken invariant ends early. -/
abbrev Run (σ : Type) := ExceptT Violation (StateM (Effects σ))

abbrev Resolve (σ : Type) := ExceptT Raise (StateM (Effects σ))

variable {σ : Type}

/-- Records an error at a place on the way to a cursor. -/
def Effects.record (c : Cursor) (location : Position) (e : FieldError) (s : Effects σ) :
    Effects σ :=
  { s with errors := s.errors ++ [⟨location, c.path.segments, e⟩] }

namespace Run

/-- A computation that does not fail as one that may. -/
def toResolve {α : Type} (x : Run σ α) : Resolve σ α :=
  ExceptT.mk do return (← x.run).mapError .violation

/-- What may break an invariant but has no effects. -/
def ofExcept {α : Type} (x : Except Violation α) : Run σ α := ExceptT.mk (pure x)

/-- A computation that is worked out no sooner than it runs. -/
def later {α : Type} (x : Unit → Run σ α) : Run σ α :=
  ExceptT.mk fun effects => (x ()).run effects

/-- Waiting changes nothing but when the work is done. -/
@[simp] theorem later_eq {α : Type} (x : Unit → Run σ α) : later x = x () := rfl

end Run

namespace Resolve

/-- Runs a resolver. A failure is recorded at the given place and gives nothing. -/
def captured {α : Type} (c : Cursor) (location : Position) (x : Resolve σ α) : Run σ (Option α) :=
  ExceptT.mk do
    match ← x.run with
    | .ok a => return .ok (some a)
    | .error (.failure e) =>
      modify (·.record c location e)
      return .ok none
    | .error (.violation v) => return .error v

end Resolve

end GraphQL
