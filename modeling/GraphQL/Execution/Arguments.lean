import GraphQL.Document
import GraphQL.Schema.Type
import GraphQL.Violation

/-!
What directives and arguments come to once variables have their values.
-/

namespace GraphQL

/-- The values of a field's arguments by name. -/
abbrev FieldArguments := Keyed InputValue

namespace FieldArguments

/-- The values of written arguments. A name that comes twice has its last value, and a variable
without a value gives null. -/
def ofWritten (vars : Variables) (args : Option (Located Arguments)) : FieldArguments :=
  match args with
  | none => []
  | some args => args.value.foldl (fun values (name, v) =>
      Keyed.put values name.value ((v.value.substitute vars).getD .null)) []

/-- Gives an argument its default if it is absent or null. -/
def fill (values : FieldArguments) (arg : ArgumentDef) : FieldArguments :=
  match arg.default with
  | none => values
  | some default =>
    match Keyed.get? values arg.name with
    | none => Keyed.put values arg.name default
    | some .null => Keyed.put values arg.name default
    | some _ => values

/-- Gives declared arguments their defaults. -/
def withDefaults (supplied : FieldArguments) (declared : List ArgumentDef) : FieldArguments :=
  declared.foldl fill supplied

/-- The arguments that a resolver of the field is given. -/
def ofField (vars : Variables) (head : FieldHead) (declared : Option (List ArgumentDef)) :
    FieldArguments :=
  (ofWritten vars head.arguments).withDefaults (declared.getD [])

end FieldArguments

namespace Directive

/-- The truth value of the argument `if`. -/
def condition? (vars : Variables) (d : Directive) : Option Bool := do
  let args ← d.arguments
  let arg ← Arguments.get? args.value (lit "if")
  (← arg.value.substitute vars).toBool?

/-- The truth value of the argument `if`, which has to be there. -/
def condition (vars : Variables) (d : Directive) : Except Violation Bool :=
  match d.condition? vars with
  | some b => .ok b
  | none => .error (.conditionMissing d.name.value)

/-- `true` when a directive excludes what it stands on. -/
def excludes (vars : Variables) (d : Directive) : Except Violation Bool :=
  if d.name.value == lit "skip" then d.condition vars
  else if d.name.value == lit "include" then (!·) <$> d.condition vars
  else .ok false

end Directive

namespace Directives

/-- `true` when one of the directives excludes what they stand on; those after it do not count. -/
def exclude (vars : Variables) : Directives → Except Violation Bool
  | [] => .ok false
  | d :: rest => do if ← d.value.excludes vars then return true else exclude vars rest

end Directives

/-- `true` when a selection's directives exclude it. -/
def Selection.isExcluded (vars : Variables) (s : Selection) : Except Violation Bool :=
  Directives.exclude vars (s.directives.getD [])

end GraphQL
