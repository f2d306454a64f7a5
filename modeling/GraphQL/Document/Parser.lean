import GraphQL.Document
import GraphQL.InputValue.Parser
import GraphQL.TypeRef.Parser

/-!
Parsing documents. The schema is at hand for the types of arguments, which only decide how scalar
literals are read.
-/

namespace GraphQL.Parser

variable {α : Type}

/-- What can be selected where it is known. -/
abbrev Fields := Option (List FieldDef)

/-- What can be selected on a type, where that is known. -/
def fieldsOf (schema : Schema) (t : Option TypeDef) : Fields := (t.bind schema.fields?).join

/-- Looks up what can be selected on a type, which never returns in a circle of unions. -/
def findFields (schema : Schema) (t : Option TypeDef) : Parser Fields :=
  if t.any fun t => (schema.fields? t).isNone then endless else return fieldsOf schema t

/-- `true` when the next token is this name. -/
def comesName (text : Text) : Parser Bool := do
  return (← peek).value == .name text

def keyword (text : Text) : Parser (Located Token) := do
  if ← comesName text then next else unexpected

/-- What `p` reads, if a punctuator comes next. -/
def ifComes (m : Punctuator) (p : Parser α) : Parser (Option α) := do
  if ← comes m then some <$> p else return none

/-- Arguments between parentheses, if they come next. -/
def arguments? (schema : Schema) (defs : List ArgumentDef) : Parser (Option (Located Arguments)) :=
  ifComes .parenOpen <| fueled <| delimitedSome (.mark .parenOpen) (.mark .parenClose) <|
    entry fun key => literal schema false <|
      (defs.find? (·.name == key)).bind fun d => schema.lookup? d.type

def directive (schema : Schema) : Parser (Located Directive) := do
  let first ← mark .at
  let n ← name
  let defs := ((schema.directive? n.value).map (·.arguments)).getD []
  let args ← arguments? schema defs
  return ⟨⟨n, args⟩, ⟨first.span.start, ((args.map (·.span)).getD n.span).stop⟩⟩

/-- Directives for as long as they come. -/
def directivesUpTo (schema : Schema) : (fuel : Nat) → Parser Directives
  | 0 => return []
  | fuel + 1 => do
    if ← comes .at then
      let d ← directive schema
      let rest ← directivesUpTo schema fuel
      return d :: rest
    else return []

/-- Directives, if one comes next. -/
def directives? (schema : Schema) : Parser (Option Directives) :=
  ifComes .at <| fueled <| directivesUpTo schema

/-- Where directives end, or else where `before` ends. -/
def endOf (directives : Option Directives) (before : Span) : Position :=
  (((directives.getD []).getLast?).map (·.span.stop)).getD before.stop

/-- Selections between braces. -/
def selectionSet (selection : Fields → Parser Selection) (fields : Fields) :
    Parser (Located SelectionSet) :=
  fueled <| delimitedSome (.mark .curlyOpen) (.mark .curlyClose) (selection fields)

/-- A fragment in place, from its directives on. What can be selected in it is found after them. -/
def inlineFragment (schema : Schema) (selection : Fields → Parser Selection) (start : Position)
    (condition : Option (Located Text)) (fields : Parser Fields) : Parser Selection := do
  let directives ← directives? schema
  let body ← selectionSet selection (← fields)
  return .inline ⟨condition, directives, ⟨start, body.span.stop⟩⟩ body.value

/-- A use of a fragment, in place or by name. -/
def fragmentSelection (schema : Schema) (selection : Fields → Parser Selection) (fields : Fields) :
    Parser Selection := do
  let start := (← mark .ellipsis).span.start
  match (← peek).value with
  | .name text =>
    if text == lit "on" then
      let _ ← next
      let condition ← name
      inlineFragment schema selection start (some condition)
        (findFields schema (schema.type? condition.value))
    else
      let n ← name
      let directives ← directives? schema
      return .spread ⟨n, directives, ⟨start, endOf directives n.span⟩⟩
  | .mark .curlyOpen => inlineFragment schema selection start none (pure fields)
  | .mark .at => inlineFragment schema selection start none (pure fields)
  | _ => unexpected

/-- The alias of a field, if it has one, and its name. -/
def fieldName : Parser (Option (Located Text) × Located Text) := do
  let first ← name
  match ← skip? (.mark .colon) with
  | some _ => return (some first, ← name)
  | none => return (none, first)

def fieldSelection (schema : Schema) (selection : Fields → Parser Selection) (fields : Fields) :
    Parser Selection := do
  let (aliasName, n) ← fieldName
  let d := fields.bind (·.find? (·.name == n.value))
  let args ← arguments? schema ((d.bind (·.arguments)).getD [])
  let directives ← directives? schema
  let below ← findFields schema (d.bind fun d => schema.lookup? d.type)
  let body ← ifComes .curlyOpen <| selectionSet selection below
  let headEnd := endOf directives ((args.map (·.span)).getD n.span)
  let stop := (body.map (·.span.stop)).getD headEnd
  let span : Span := ⟨(aliasName.getD n).span.start, stop⟩
  return .field ⟨aliasName, n, args, directives, span⟩ (body.map (·.value))

/-- A selection nested less than `fuel` deep. -/
def selectionUpTo (schema : Schema) : (fuel : Nat) → Fields → Parser Selection
  | 0, _ => unexpected
  | fuel + 1, fields => do
    if ← comes .ellipsis then fragmentSelection schema (selectionUpTo schema fuel) fields
    else fieldSelection schema (selectionUpTo schema fuel) fields

/-- Selections between braces, nested to any depth. -/
def selections (schema : Schema) (fields : Fields) : Parser (Located SelectionSet) :=
  fueled fun fuel => selectionSet (selectionUpTo schema fuel) fields

/-- The default of a variable, if an equals sign comes next. -/
def default? (schema : Schema) (t : TypeRef) : Parser (Option (Located InputValue)) := do
  match ← skip? (.mark .equals) with
  | some _ => some <$> literal schema true (schema.lookup? t)
  | none => return none

def variableDef (schema : Schema) : Parser VariableDef := do
  let dollar ← mark .dollar
  let n ← name
  let _ ← mark .colon
  let t ← typeRef
  let value ← default? schema t.value
  let directives ← directives? schema
  return ⟨⟨n.value, ⟨dollar.span.start, n.span.stop⟩⟩, t, value, directives⟩

/-- Declarations of variables between parentheses, if they come next. -/
def variableDefs? (schema : Schema) : Parser (Option (Located (List VariableDef))) :=
  ifComes .parenOpen <| fueled <|
    delimitedSome (.mark .parenOpen) (.mark .parenClose) (variableDef schema)

/-- A name, if one comes next. -/
def name? : Parser (Option (Located Text)) := do
  if (← peek).value.kind == .name then some <$> name else return none

/-- A query that is written as its selections alone. -/
def shorthand (schema : Schema) : Parser Operation := do
  let body ← selections schema (← findFields schema (schema.root? .query))
  return ⟨.query, none, none, none, body.value, body.span⟩

def operation (schema : Schema) (type : OperationType) : Parser Operation := do
  let first ← keyword type.toText
  let n ← name?
  let vars ← variableDefs? schema
  let directives ← directives? schema
  let body ← selections schema (← findFields schema (schema.root? type))
  return ⟨type, n, vars, directives, body.value, ⟨first.span.start, body.span.stop⟩⟩

/-- A named fragment. Its name is not `on`. -/
def fragmentDef (schema : Schema) : Parser Fragment := do
  let first ← keyword (lit "fragment")
  let n ← name
  if n.value == lit "on" then failAt (.ofToken (.name n.value)) n.span
  let _ ← keyword (lit "on")
  let condition ← name
  let directives ← directives? schema
  let body ← selections schema (← findFields schema (schema.type? condition.value))
  return ⟨n, condition, directives, body.value, ⟨first.span.start, body.span.stop⟩⟩

def definition (schema : Schema) : Parser Definition := do
  match (← peek).value with
  | .mark .curlyOpen => .operation <$> shorthand schema
  | .name text =>
    if text == OperationType.query.toText then .operation <$> operation schema .query
    else if text == OperationType.mutation.toText then .operation <$> operation schema .mutation
    else if text == OperationType.subscription.toText then
      .operation <$> operation schema .subscription
    else if text == lit "fragment" then .fragment <$> fragmentDef schema
    else unexpected
  | _ => unexpected

/-- Definitions up to the end of the file. -/
def definitionsUpTo (schema : Schema) : (fuel : Nat) → Parser Document
  | 0 => return []
  | fuel + 1 => do
    let d ← definition schema
    if (← peek).value == .endOfFile then return [d]
    let rest ← definitionsUpTo schema fuel
    return d :: rest

/-- A document: one definition or more, and nothing after them. -/
def document (schema : Schema) : Parser Document := fueled (definitionsUpTo schema)

end GraphQL.Parser

namespace GraphQL.Document

def ofText (schema : Schema) (t : Text) : Except Parser.Failure Document := do
  let tokens ← (Tokens.ofText t).mapError .refused
  match (Parser.document schema).run tokens with
  | .ok doc _ => .ok doc
  | .error e _ => .error e

end GraphQL.Document
