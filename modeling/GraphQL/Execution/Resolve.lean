import GraphQL.Execution.Selections
import GraphQL.Resolver

/-!
Running resolvers: each field that is selected on a value is resolved by the value's own resolver,
which may resolve other values in turn.
-/

namespace GraphQL

variable {σ : Type}

mutual

/-- Resolves what is selected at a cursor on a value. -/
def Node.resolve : Node σ → Cursor → Resolve σ Value
  | .mk typeName objectName field into whole, c =>
    match whole.run? c with
    | some x => x
    | none =>
      match c.selections with
      | none => throw (.violation (.noSelectionSet typeName))
      | some selections =>
        (c.resolveSelections ⟨typeName, objectName,
          fun task => (field task.name task.arguments task.cursor).run task.cursor,
          fun condition c => (into condition).run? c⟩ selections).toResolve

/-- Runs what takes the place of the selections, if anything does. -/
def Override.run? : Override σ → Cursor → Option (Resolve σ Value)
  | .none, _ => none
  | .custom f, c => some ((f c).run c)

def Action.run : Action σ → Cursor → Resolve σ Value
  | .value v, _ => return v
  | .fail e, _ => throw (.failure e)
  | .violate v, _ => throw (.violation v)
  | .report e location next, c => do
    modify (·.record c (location.getD c.location) e)
    next.run c
  | .update f next, c => do
    modify fun s => { s with world := f s.world }
    (next (← get).world).run c
  | .resolve node next, c => do (next (← resolvePresent node c)).run c
  | .resolveInto node next, c => do
    (next ((← ((node.resolve c).captured c c.location).toResolve).getD .null)).run c
  | .resolveList nodes next, c => do
    match c.currentType.element? with
    | none => throw (.violation (.notList c.currentType.toText))
    | some element =>
      match ← resolveItems element.isNonNull nodes 0 c with
      | some items => (next (.list items)).run c
      | none => (next .null).run c

/-- Resolves a value that has to be there. -/
def resolvePresent : Option (Node σ) → Cursor → Resolve σ Value
  | none, _ => throw (.failure (.ofText (lit "Resolved a missing value")))
  | some node, c => node.resolve c

/-- Resolves a value that may be missing. -/
def resolveItem : Option (Node σ) → Cursor → Resolve σ Value
  | none, _ => return .null
  | some node, c => do return (← ((node.resolve c).captured c c.location).toResolve).getD .null

/-- Resolves the items of a list from an index on. Where null is refused, the first null is the end
of it. -/
def resolveItems (stopOnNull : Bool) :
    List (Option (Node σ)) → (i : Nat) → Cursor → Resolve σ (Option (List Value))
  | [], _, _ => return some []
  | node :: rest, i, c => do
    let v ← resolveItem node (c.atIndex i)
    if stopOnNull && v.isNull then return none
    return (← resolveItems stopOnNull rest (i + 1) c).map (v :: ·)

end

/-- Resolves what is selected at a cursor on a value. A failure is recorded and gives null. -/
def Node.resolveInto (node : Node σ) (c : Cursor) : Run σ Value := do
  return (← (node.resolve c).captured c c.location).getD .null

end GraphQL
