import GraphQL.Execution.Cursor
import GraphQL.Schema.Relations

/-!
What resolving a selection set on an object comes to: the fields to resolve, in order, with
fragments in their places. Planning has no effects. It stops at the first selection that breaks an
invariant, and does not look into a fragment before its turn has come.
-/

namespace GraphQL

/-- The object that selections are made on: the type its fields are declared by, and the name of the
object type it is of. -/
structure Subject where
  type : TypeDef
  objectName : Text

structure FieldTask where
  key : Text
  name : Text
  arguments : FieldArguments
  cursor : Cursor
  nonNull : Bool

/-- The place of a field in the document. -/
def FieldTask.location (t : FieldTask) : Position := t.cursor.location

/-- Resolving an object as another type, for an inline fragment with a condition. -/
structure Narrowing where
  condition : Text
  cursor : Cursor
  location : Position

mutual

/-- A step of a plan: a field that tells the object's type, a field to resolve, the steps of a
fragment, or those of an inline fragment with a condition. -/
inductive Step where
  | typename (key : Text)
  | field (task : FieldTask)
  | splice (plan : Unit → Plan)
  | narrow (narrowing : Narrowing) (plan : Unit → Plan)

/-- Steps in order, up to where planning stopped. -/
inductive Plan where
  | done
  | stop (v : Violation)
  | step (s : Step) (rest : Plan)

end

namespace Plan

/-- How planning goes on inside a fragment. -/
abbrev Expand := Cursor → Fragment → Plan

def ofField (subject : Subject) (c : Cursor) (head : FieldHead) (selections : Option SelectionSet) :
    Except Violation Step := do
  if head.name.value == lit "__typename" then return .typename head.responseName
  match subject.type.field? head.name.value with
  | none => throw (.fieldNotFound head.name.value subject.type.name)
  | some declaration =>
    let cursor ← c.atField ⟨head, declaration⟩ selections
    return .field ⟨head.responseName, head.name.value,
      .ofField c.scope.vars head declaration.arguments, cursor, declaration.type.isNonNull⟩

mutual

/-- The step of a selection, if it is not excluded and applies to the object. -/
def ofSelection (subject : Subject) (expand : Expand) (c : Cursor) :
    Selection → Except Violation (Option Step)
  | .field head selections => do
    if ← Directives.exclude c.scope.vars (head.directives.getD []) then return none
    return some (← ofField subject c head selections)
  | .spread sp => do
    if ← Directives.exclude c.scope.vars (sp.directives.getD []) then return none
    let f ← c.scope.requireFragment sp.name.value
    if ← c.scope.schema.meetsCondition f.condition.value subject.objectName then
      return some (.splice fun _ => expand c f)
    else return none
  | .inline head body => do
    if ← Directives.exclude c.scope.vars (head.directives.getD []) then return none
    let inner := c.atInline head.condition body
    match head.condition with
    | none => return some (.splice fun _ => ofSelections subject expand inner body)
    | some condition =>
      if ← c.scope.schema.meetsCondition condition.value subject.objectName then
        return some (.narrow ⟨condition.value, inner, head.span.start⟩
          fun _ => ofSelections subject expand inner body)
      else return none

def ofSelections (subject : Subject) (expand : Expand) (c : Cursor) : List Selection → Plan
  | [] => .done
  | s :: rest =>
    match ofSelection subject expand c s with
    | .error v => .stop v
    | .ok none => ofSelections subject expand c rest
    | .ok (some first) => .step first (ofSelections subject expand c rest)

end

/-- Plans fragments that lie at most `depth` deep in one another. -/
def expandUpTo (subject : Subject) : (depth : Nat) → Expand
  | 0, _, f => .stop (.endlessFragment f.name.value)
  | depth + 1, c, f => ofSelections subject (expandUpTo subject depth) c f.selections

/-- The plan of a selection set. A document without circles has no more fragments inside one another
than it has fragments. -/
def ofSelectionSet (subject : Subject) (c : Cursor) (selections : SelectionSet) : Plan :=
  ofSelections subject (expandUpTo subject c.scope.fragments.length) c selections

end Plan

end GraphQL
