import GraphQL.Execution.Cursor

/-!
What is selected below a field, seen before it is resolved: fragments are flattened, excluded
selections are gone and arguments have their values, so that a resolver can fetch what is needed at
once.
-/

namespace GraphQL

/-- A field with what is selected below it. It may apply to objects of one type only. -/
structure LookAhead where
  name : Text
  aliasName : Option Text
  arguments : FieldArguments
  /-- The type whose objects the field is selected on, if the fragment around it says so. -/
  appliesTo : Option Text
  children : List LookAhead

namespace LookAhead

/-- The key of a field in the response. -/
def responseKey (l : LookAhead) : Text := l.aliasName.getD l.name

/-- The first selection of a field below this one. -/
def child? (l : LookAhead) (name : Text) : Option LookAhead := l.children.find? (·.name == name)

mutual

/-- Keeps what applies to objects of a type, at all depths. -/
def narrow (typeName : Text) : LookAhead → LookAhead
  | ⟨name, aliasName, arguments, appliesTo, children⟩ =>
    ⟨name, aliasName, arguments, appliesTo, narrowAll typeName children⟩

/-- Keeps the fields that apply to objects of a type. -/
def narrowAll (typeName : Text) : List LookAhead → List LookAhead
  | [] => []
  | l :: rest =>
    if l.appliesTo.all (· == typeName) then l.narrow typeName :: narrowAll typeName rest
    else narrowAll typeName rest

end

/-- Where look-ahead stands: the type that is selected on as far as that is known, and the object
type that the fragments around restrict the selection to. -/
structure Place where
  parent : Option TypeDef
  appliesTo : Option Text

namespace Place

/-- The place inside a fragment. The condition restricts the selection if it is an object type and
not the one that is selected on anyway. -/
def inFragment (p : Place) (condition : Option TypeDef) : Place :=
  match condition with
  | none => ⟨none, p.appliesTo⟩
  | some t =>
    if t.isObject && p.parent.all (·.name != t.name) then ⟨some t, some t.name⟩
    else ⟨some t, p.appliesTo⟩

end Place

/-- How look-ahead goes on inside a fragment. -/
abbrev Expand := Place → Fragment → Except Violation (List LookAhead)

/-- The declaration of a field, if its parent has it. -/
def declaration? (p : Place) (head : FieldHead) : Option FieldDef :=
  p.parent.bind (·.field? head.name.value)

/-- A field with what is selected below it. -/
def ofField (scope : Scope) (head : FieldHead) (declaration : Option FieldDef)
    (appliesTo : Option Text) (children : List LookAhead) : LookAhead :=
  ⟨head.name.value, head.aliasName.map (·.value),
    .ofField scope.vars head (declaration.bind FieldDef.arguments), appliesTo, children⟩

mutual

def ofSelection (scope : Scope) (expand : Expand) (p : Place) :
    Selection → Except Violation (List LookAhead)
  | .field head none => do
    if ← Directives.exclude scope.vars (head.directives.getD []) then return []
    return [ofField scope head (declaration? p head) p.appliesTo []]
  | .field head (some body) => do
    if ← Directives.exclude scope.vars (head.directives.getD []) then return []
    let declaration := declaration? p head
    let below := declaration.bind fun d => scope.schema.lookup? d.type
    let children ← ofSelections scope expand ⟨below, none⟩ body
    return [ofField scope head declaration p.appliesTo children]
  | .spread sp => do
    if ← Directives.exclude scope.vars (sp.directives.getD []) then return []
    let f ← scope.requireFragment sp.name.value
    expand (p.inFragment (scope.schema.type? f.condition.value)) f
  | .inline head body => do
    if ← Directives.exclude scope.vars (head.directives.getD []) then return []
    match head.condition with
    | none => ofSelections scope expand p body
    | some condition =>
      ofSelections scope expand (p.inFragment (scope.schema.type? condition.value)) body

/-- The fields of selections, in order. -/
def ofSelections (scope : Scope) (expand : Expand) (p : Place) :
    List Selection → Except Violation (List LookAhead)
  | [] => .ok []
  | s :: rest => do
    let fields ← ofSelection scope expand p s
    return fields ++ (← ofSelections scope expand p rest)

end

/-- Goes on inside fragments that lie at most `depth` deep in one another. -/
def expandUpTo (scope : Scope) : (depth : Nat) → Expand
  | 0, _, f => .error (.endlessFragment f.name.value)
  | depth + 1, p, f => ofSelections scope (expandUpTo scope depth) p f.selections

/-- The fields of selections. A document without circles has no more fragments inside one another
than it has fragments. -/
def ofSelectionSet (scope : Scope) (p : Place) (selections : SelectionSet) :
    Except Violation (List LookAhead) :=
  ofSelections scope (expandUpTo scope scope.fragments.length) p selections

end LookAhead

/-- The field that is being resolved with what is selected below it. At the root the name is that of
the type. -/
def Cursor.lookAhead (c : Cursor) : Except Violation LookAhead := do
  let type := c.currentType.innermost
  let children ← LookAhead.ofSelectionSet c.scope ⟨some type, none⟩ (c.selections.getD [])
  match c.field with
  | none => return ⟨type.name, none, [], none, children⟩
  | some f => return .ofField c.scope f.head (some f.declaration) none children

end GraphQL
