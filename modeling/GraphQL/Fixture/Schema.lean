import GraphQL.Fixture.Basic
import GraphQL.Schema

/-!
Schemas described in JSON.
-/

namespace GraphQL.Fixture

def typeAt (j : Json) : Read TypeRef := do type (← field j "type")

/-- An argument, or a field of an input object. -/
def argument (j : Json) : Read ArgumentDef := do
  let default ← (field? j "default").mapM literal
  return ⟨textAt j "name", text? j "desc", ← typeAt j, default⟩

/-- A deprecation: a text is the reason, and anything else that is there gives none. -/
def deprecation (j : Json) : Deprecation :=
  match field? j "deprecated" with
  | none => .current
  | some (.string reason) => .deprecated (some reason)
  | some _ => .deprecated none

/-- A field of an object or interface. An empty list of arguments counts as none. -/
def fieldDef (j : Json) : Read FieldDef := do
  let args ← (itemsAt j "args").mapM argument
  return ⟨textAt j "name", text? j "desc", if args.isEmpty then none else some args, ← typeAt j,
    deprecation j⟩

/-- A value of an enumeration: its name, or a description. -/
def enumValue : Json → EnumValueDef
  | .string name => ⟨name, none, .current⟩
  | j => ⟨textAt j "name", text? j "desc", deprecation j⟩

/-- How a scalar reads literals: like a built-in one, or refusing all of them. -/
def scalarParse (like : Text) : Literal → Except Rejection Scalar :=
  if like == lit "Int" then Scalars.parseInt
  else if like == lit "Float" then Scalars.parseFloat
  else if like == lit "Boolean" then Scalars.parseBoolean
  else if like == lit "ID" then Scalars.parseId
  else if like == lit "reject" then
    fun _ => .error (.parse (.expectedScalar (lit "rejected literal")))
  else if like == lit "lexfail" then fun _ => .error (.lexer (.unknownEscapeSequence (lit "\\q")))
  else Scalars.parseString

def objectDef (j : Json) : Read ObjectDef := do
  return ⟨textAt j "name", text? j "desc", ← (itemsAt j "fields").mapM fieldDef,
    ← texts (itemsAt j "implements")⟩

def entry (j : Json) : Read TypeEntry := do
  let kind := textAt j "kind"
  let name := textAt j "name"
  let desc := text? j "desc"
  if kind == lit "object" then return .defined (.object (← objectDef j))
  else if kind == lit "interface" then return .defined (.interface (← objectDef j))
  else if kind == lit "union" then
    return .defined (.union ⟨name, desc, ← texts (itemsAt j "members")⟩)
  else if kind == lit "enum" then
    return .defined (.enum ⟨name, desc, (itemsAt j "values").map enumValue⟩)
  else if kind == lit "input" then
    return .defined (.inputObject ⟨name, desc, ← (itemsAt j "fields").mapM argument⟩)
  else if kind == lit "scalar" then
    return .defined (.scalar ⟨name, desc, text? j "url", scalarParse (textAt j "like")⟩)
  else if kind == lit "list" then return .list (← type (← field j "of")) none
  else if kind == lit "nullable" then return .nullable (← type (← field j "of"))
  else malformed "type description"

/-- Adds a type to a registry, or reserves a name for it. -/
def register (r : Registry) (j : Json) : Read Registry := do
  if textAt j "kind" == lit "placeholder" then return r.reserve (textAt j "name")
  (r.add (← entry j)).mapError .violation

/-- The places where a directive may stand, in the order of their numbers. -/
def locations : List DirectiveLocation :=
  [.query, .mutation, .subscription, .field, .fragmentDefinition, .fragmentSpread, .inlineFragment,
    .variableDefinition, .scalar, .fieldDefinition, .enumValue, .argumentDefinition,
    .inputFieldDefinition]

def directive (j : Json) : Read DirectiveDef := do
  let numbers ← (itemsAt j "locations").mapM nat
  return ⟨textAt j "name", text? j "desc", numbers.filterMap (locations[·]?),
    ← (itemsAt j "args").mapM argument, flagAt j "repeatable"⟩

/-- A schema without the directives that are described. -/
def typesOnly (j : Json) : Read Schema := do
  let registry ← (itemsAt j "types").foldlM register Registry.initial
  let query := (text? j "query").getD (lit "Query")
  let built ← (Schema.build registry query (text? j "mutation") (text? j "subscription")).mapError
    .violation
  return { built with description := text? j "desc" }

def addDirectives (j : Json) (s : Schema) : Read Schema := do
  return (← (itemsAt j "directives").mapM directive).foldl Schema.addDirective s

def schema (j : Json) : Read Schema := do addDirectives j (← typesOnly j)

end GraphQL.Fixture
