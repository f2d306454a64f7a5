import GraphQL.Validation.Rules

/-!
Validators described by the names of their rules.
-/

namespace GraphQL.Fixture

/-- Operations have names, and there is a fragment `Known`. -/
def namedOperations : Rule where
  name := lit "NamedOperations"
  check _ doc reported :=
    let unnamed : List RuleError := (doc.operations.filter (·.name.isNone)).map fun op =>
      ⟨lit "Operations must be named", [op.span.start]⟩
    if (doc.fragment? (lit "Known")).isSome then unnamed
    else if (reported ++ unnamed).isEmpty then [⟨lit "missing Known", []⟩]
    else unnamed ++ [⟨lit "missing Known too", []⟩]

/-- Adds a rule by its name, or starts again from the built-in ones. -/
def addRule (v : Validator) (name : Text) : Validator :=
  if name == lit "builtin" then Rules.builtin
  else v ++ (namedOperations :: Rules.builtin).filter (·.name == name)

/-- The rules of the given names, or the built-in ones. -/
def validator : Option (List Text) → Validator
  | some names => names.foldl addRule []
  | none => Rules.builtin

end GraphQL.Fixture
