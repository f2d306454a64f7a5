import GraphQL.Document
import GraphQL.Schema

/-!
The selections of a document in written order, nested ones included, each with the type it is made
on as far as that is known.
-/

namespace GraphQL

/-- A selection and the type it is made on. -/
structure Visit where
  selection : Selection
  parent : Option TypeDef

namespace Visit

/-- The type that is selected on below a field. -/
def typeBelow (s : Schema) (parent : Option TypeDef) (field : Text) : Option TypeDef :=
  (parent.bind (·.field? field)).bind fun f => s.lookup? f.type

/-- The type that is selected on inside an inline fragment. -/
def typeInside (s : Schema) (parent : Option TypeDef) : Option (Located Text) → Option TypeDef
  | some condition => s.type? condition.value
  | none => parent

mutual

def ofSelection (s : Schema) (parent : Option TypeDef) : Selection → List Visit
  | .field head none => [⟨.field head none, parent⟩]
  | .field head (some body) =>
    ⟨.field head (some body), parent⟩ :: ofSelections s (typeBelow s parent head.name.value) body
  | .spread sp => [⟨.spread sp, parent⟩]
  | .inline head body =>
    ⟨.inline head body, parent⟩ :: ofSelections s (typeInside s parent head.condition) body

def ofSelections (s : Schema) (parent : Option TypeDef) : List Selection → List Visit
  | [] => []
  | x :: rest => ofSelection s parent x ++ ofSelections s parent rest

end

def ofDefinition (s : Schema) : Definition → List Visit
  | .operation op => ofSelections s (s.root? op.type) op.selections
  | .fragment f => ofSelections s (s.type? f.condition.value) f.selections

def ofDocument (s : Schema) (doc : Document) : List Visit := doc.flatMap (ofDefinition s)

end Visit

end GraphQL
