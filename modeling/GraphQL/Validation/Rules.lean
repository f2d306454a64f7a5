import GraphQL.Validation.Cycles
import GraphQL.Validation.Visit

/-!
The rules that every document is checked by before it is executed.
-/

namespace GraphQL.Rules

/-- The report about a name that stands for nothing. -/
def unknown (what name : Text) (location : Position) : RuleError :=
  ⟨lit "Unknown " ++ what ++ lit " \"" ++ name ++ lit "\"", [location]⟩

/-- Every spread names a fragment of the document. -/
def knownFragmentNames : Rule where
  name := lit "KnownFragmentNames"
  check s doc _ :=
    let fragments := doc.fragments
    (Visit.ofDocument s doc).filterMap fun visit => match visit.selection with
    | .spread sp =>
      if fragments.any (·.name.value == sp.name.value) then none
      else some (unknown (lit "fragment:") sp.name.value sp.name.span.start)
    | _ => none

/-- The report about a type name, if the schema has no such type. -/
def unknownType (s : Schema) (name : Text) (location : Position) : List RuleError :=
  if (s.type? name).isSome then [] else [unknown (lit "type") name location]

/-- The unknown types that the head of a definition names. -/
def unknownTypesOfHead (s : Schema) : Definition → List RuleError
  | .fragment f => unknownType s f.condition.value f.condition.span.start
  | .operation op =>
    op.variableDefs.flatMap fun d => unknownType s d.type.value.innermostName d.type.span.start

/-- The unknown type that a selection names. -/
def unknownTypesOfSelection (s : Schema) : Selection → List RuleError
  | .inline ⟨some condition, _, _⟩ _ => unknownType s condition.value condition.span.start
  | _ => []

/-- Every type that is named exists. -/
def knownTypeNames : Rule where
  name := lit "KnownTypeNames"
  check s doc _ := doc.flatMap (unknownTypesOfHead s) ++
    (Visit.ofDocument s doc).flatMap fun visit => unknownTypesOfSelection s visit.selection

/-- `true` when a type has the field. Unions have none of their own but can tell their type. -/
def hasField (t : TypeDef) (field : Text) : Bool :=
  (t.field? field).isSome || match t with
    | .union _ => field == lit "__typename"
    | _ => false

/-- Every field exists on the type it is selected on. -/
def fieldsOnCorrectType : Rule where
  name := lit "FieldsOnCorrectType"
  check s doc _ := (Visit.ofDocument s doc).filterMap fun visit =>
    match visit.selection, visit.parent with
    | .field head _, some parent =>
      if hasField parent head.name.value then none
      else some ⟨lit "Unknown field \"" ++ head.name.value ++ lit "\" on type \"" ++ parent.name ++
        lit "\"", [head.span.start]⟩
    | _, _ => none

/-- No fragment leads back to itself. Execution relies on this rule. -/
def noFragmentCycles : Rule where
  name := lit "NoFragmentCycles"
  check _ doc _ := (Cycles.search doc.fragments).found

/-- The rules that apply unless others are chosen. -/
def builtin : Validator :=
  [knownFragmentNames, knownTypeNames, fieldsOnCorrectType, noFragmentCycles]

end GraphQL.Rules
