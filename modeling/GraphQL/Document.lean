import GraphQL.InputValue
import GraphQL.TypeRef
import GraphQL.Violation

/-!
Documents: operations and fragments as they are written, with the spans they were read from.
-/

namespace GraphQL

/-- Arguments in written order. A name may come twice. -/
abbrev Arguments := List (Located Text × Located InputValue)

namespace Arguments

/-- The first argument of a name. -/
def get? (args : Arguments) (name : Text) : Option (Located InputValue) :=
  (args.find? (·.1.value == name)).map (·.2)

end Arguments

structure Directive where
  name : Located Text
  arguments : Option (Located Arguments)

/-- Directives in written order. -/
abbrev Directives := List (Located Directive)

/-- A selected field without what is selected below it. -/
structure FieldHead where
  aliasName : Option (Located Text)
  name : Located Text
  arguments : Option (Located Arguments)
  directives : Option Directives
  span : Span

/-- The key of a field in the response: its alias, or its name. -/
def FieldHead.responseName (f : FieldHead) : Text :=
  match f.aliasName with
  | some a => a.value
  | none => f.name.value

structure Spread where
  name : Located Text
  directives : Option Directives
  span : Span

/-- A fragment in place, without its selections. -/
structure InlineHead where
  condition : Option (Located Text)
  directives : Option Directives
  span : Span

inductive Selection where
  | field (head : FieldHead) (selections : Option (List Selection))
  | spread (spread : Spread)
  | inline (head : InlineHead) (selections : List Selection)

abbrev SelectionSet := List Selection

namespace Selection

def span : Selection → Span
  | field head _ => head.span
  | spread s => s.span
  | inline head _ => head.span

def directives : Selection → Option Directives
  | field head _ => head.directives
  | spread s => s.directives
  | inline head _ => head.directives

end Selection

/-- A variable that an operation declares. The span of its name begins at the dollar sign. -/
structure VariableDef where
  name : Located Text
  type : Located TypeRef
  default : Option (Located InputValue)
  directives : Option Directives

structure Operation where
  type : OperationType
  name : Option (Located Text)
  declaredVars : Option (Located (List VariableDef))
  directives : Option Directives
  selections : SelectionSet
  span : Span

namespace Operation

/-- The operation in messages: its keyword and its name. -/
def label (op : Operation) : Text :=
  op.type.toText ++ lit " " ++
    match op.name with
    | some name => name.value
    | none => lit "<anonymous>"

def variableDefs (op : Operation) : List VariableDef :=
  match op.declaredVars with
  | some defs => defs.value
  | none => []

/-- Supplied values, and for variables without one the first default that is declared. -/
def withDefaults (op : Operation) (vars : Variables) : Variables :=
  op.variableDefs.foldl (fun vars d =>
    match d.default with
    | some v => Keyed.putNew vars d.name.value v.value
    | none => vars) vars

end Operation

structure Fragment where
  name : Located Text
  condition : Located Text
  directives : Option Directives
  selections : SelectionSet
  span : Span

inductive Definition where
  | operation (op : Operation)
  | fragment (f : Fragment)

namespace Definition

def operation? : Definition → Option Operation
  | operation op => some op
  | _ => none

def fragment? : Definition → Option Fragment
  | fragment f => some f
  | _ => none

end Definition

/-- Operations and fragments in written order. -/
abbrev Document := List Definition

namespace Document

def operations (doc : Document) : List Operation := doc.filterMap Definition.operation?

def fragments (doc : Document) : List Fragment := doc.filterMap Definition.fragment?

/-- The first fragment of a name. -/
def fragment? (doc : Document) (name : Text) : Option Fragment :=
  doc.fragments.find? (·.name.value == name)

end Document

end GraphQL
