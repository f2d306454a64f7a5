import GraphQL.Execution.Cursor

/-!
Resolvers: where the values of fields come from. A resolver is a program in the form of a tree, so
that what it does can be followed step by step: it reports errors, changes the world that it lives
in, hands on to other resolvers, and ends in a value or a failure. `σ` is the type of that world.
-/

namespace GraphQL

mutual

/-- A value that selections are resolved on: the type that declares its fields, the object type that
it tells, a resolver for each field, and how it is resolved as another type or as a whole. -/
inductive Node (σ : Type) where
  | mk (typeName objectName : Text)
      (field : Text → FieldArguments → Cursor → Action σ)
      (into : Text → Override σ)
      (whole : Override σ)

/-- What takes the place of resolving the selected fields one by one, if anything does. -/
inductive Override (σ : Type) where
  | none
  | custom (run : Cursor → Action σ)

inductive Action (σ : Type) where
  /-- Ends in a value. -/
  | value (v : Value)
  | fail (e : FieldError)
  /-- Breaks off the request. -/
  | violate (v : Violation)
  /-- Reports an error, at the place of the field or at another, and goes on. -/
  | report (e : FieldError) (location : Option Position) (next : Action σ)
  | update (f : σ → σ) (next : σ → Action σ)
  /-- Resolves what is selected on a value; it fails if there is none. -/
  | resolve (node : Option (Node σ)) (next : Value → Action σ)
  /-- Resolves what is selected on a value; a failure is reported and gives null. -/
  | resolveInto (node : Node σ) (next : Value → Action σ)
  /-- Resolves what is selected on each of several values; missing ones give null. -/
  | resolveList (nodes : List (Option (Node σ))) (next : Value → Action σ)

end

namespace Node

variable {σ : Type}

/-- The type that declares a value's fields. -/
def typeName : Node σ → Text
  | mk typeName _ _ _ _ => typeName

/-- The object type that a value tells. -/
def objectName : Node σ → Text
  | mk _ objectName _ _ _ => objectName

end Node

namespace Action

variable {σ α : Type}

/-- What a resolver does if an invariant may be broken on the way. -/
def ofExcept (f : α → Action σ) : Except Violation α → Action σ
  | .ok a => f a
  | .error v => violate v

/-- Goes on with the value that a resolver ends in. -/
def andThen (k : Value → Action σ) : Action σ → Action σ
  | value v => k v
  | fail e => fail e
  | violate v => violate v
  | report e location next => report e location (next.andThen k)
  | update f next => update f fun s => (next s).andThen k
  | resolve node next => resolve node fun v => (next v).andThen k
  | resolveInto node next => resolveInto node fun v => (next v).andThen k
  | resolveList nodes next => resolveList nodes fun v => (next v).andThen k

/-- Ends in what is selected on a value. -/
def ofNode (node : Option (Node σ)) : Action σ := resolve node value

/-- Ends in what is selected on a value, or in null if there is none. -/
def ofNode? : Option (Node σ) → Action σ
  | none => value .null
  | some node => resolve (some node) value

end Action

end GraphQL
