import GraphQL.Schema.Registry

/-!
A schema: types that all are defined, its roots, and its directives. It is built once from a
registry and only read afterwards.
-/

namespace GraphQL

/-- A schema. Objects and interfaces all have the field `__typename`. -/
structure Schema where
  types : Keyed TypeDef
  queryName : Text
  mutationName : Option Text
  subscriptionName : Option Text
  directives : Keyed DirectiveDef
  description : Option Text

namespace Schema

/-- The field that tells an object's type. -/
def typenameField : FieldDef :=
  ⟨lit "__typename", none, none, .named (lit "String") true, .current⟩

/-- Adds the field that tells an object's type, unless it is declared. -/
def withTypename (fields : List FieldDef) : List FieldDef :=
  if fields.any (·.name == lit "__typename") then fields else fields ++ [typenameField]

/-- A type as it stands in a schema. -/
def complete : TypeDef → TypeDef
  | .object d => .object { d with fields := withTypename d.fields }
  | .interface d => .interface { d with fields := withTypename d.fields }
  | t => t

/-- The types of a registry, if all of them are defined. -/
def typesOf : Keyed TypeEntry → Except Violation (Keyed TypeDef)
  | [] => .ok []
  | (name, entry) :: rest =>
    match entry.definition? with
    | some d => ((name, complete d) :: ·) <$> typesOf rest
    | none => .error (.placeholderLeft entry.toRef.toText)

def type? (s : Schema) (name : Text) : Option TypeDef := s.types.get? name

/-- The definition of a name that has to be there. -/
def requireType (s : Schema) (name : Text) : Except Violation TypeDef :=
  match s.type? name with
  | some t => .ok t
  | none => .error (.typeNotFound name)

/-- Checks that a root is an object. -/
def checkRoot (types : Keyed TypeDef) (operation : OperationType) (name : Text) :
    Except Violation Unit :=
  match types.get? name with
  | none => .error (.rootMissing operation)
  | some t => if t.isObject then .ok () else .error (.rootNotObject operation)

/-- Checks a root if there is one. -/
def checkOptionalRoot (types : Keyed TypeDef) (operation : OperationType) :
    Option Text → Except Violation Unit
  | none => .ok ()
  | some name => checkRoot types operation name

/-- A directive that selects on a condition. -/
def conditionDirective (name description : Text) : DirectiveDef :=
  ⟨name, some description, [.field, .fragmentSpread, .inlineFragment],
    [⟨lit "if", none, .named (lit "Boolean") true, none⟩], false⟩

/-- The directives that every schema has. -/
def builtinDirectives : List DirectiveDef :=
  [conditionDirective (lit "skip")
      (lit "Directs the executor to skip this field or fragment when the `if` argument is true."),
    conditionDirective (lit "include")
      (lit "Directs the executor to include this field or fragment only when the `if` " ++
        lit "argument is true."),
    ⟨lit "deprecated", some (lit "Marks an element of a GraphQL schema as no longer supported."),
      [.fieldDefinition, .enumValue], [⟨lit "reason", none, .named (lit "String") false, none⟩],
      false⟩,
    ⟨lit "specifiedBy", some (lit "Exposes a URL that specifies the behaviour of this scalar."),
      [.scalar], [⟨lit "url", none, .named (lit "String") true, none⟩], false⟩]

/-- Adds a directive, in place of an earlier one of that name. -/
def addDirective (s : Schema) (d : DirectiveDef) : Schema :=
  { s with directives := s.directives.put d.name d }

/-- Builds a schema. Every reserved name has to be defined and every root has to be an object. -/
def build (r : Registry) (queryName : Text) (mutationName subscriptionName : Option Text) :
    Except Violation Schema := do
  let types ← typesOf r.types
  checkRoot types .query queryName
  checkOptionalRoot types .mutation mutationName
  checkOptionalRoot types .subscription subscriptionName
  return builtinDirectives.foldl addDirective
    ⟨types, queryName, mutationName, subscriptionName, [], none⟩

def rootName? (s : Schema) : OperationType → Option Text
  | .query => some s.queryName
  | .mutation => s.mutationName
  | .subscription => s.subscriptionName

def root? (s : Schema) (operation : OperationType) : Option TypeDef :=
  (s.rootName? operation).bind s.type?

/-- The definition under all lists of a reference. -/
def lookup? (s : Schema) (t : TypeRef) : Option TypeDef := s.type? t.innermostName

def directive? (s : Schema) (name : Text) : Option DirectiveDef := s.directives.get? name

/-- The directives sorted by name. -/
def directiveList (s : Schema) : List DirectiveDef := s.directives.sorted.map (·.2)

/-- The place of a kind in lists of types. -/
def kindRank : TypeKind → Nat
  | .enum => 0
  | .inputObject => 1
  | .interface => 2
  | .scalar => 3
  | .object => 4
  | .union => 5
  | .list => 6

/-- `true` unless the second type comes before the first: by kind, then by name. -/
def typeLE (a b : TypeDef) : Bool :=
  if kindRank a.kind == kindRank b.kind then !Text.lt b.name a.name
  else kindRank a.kind < kindRank b.kind

/-- All types sorted by kind, then by name. -/
def typeList (s : Schema) : List TypeDef := (s.types.map (·.2)).mergeSort typeLE

/-- The fields that can be selected on a type, where any can: those of an object or interface, or
those of all members of a union. Unions inside unions are followed `depth` deep, and there is no
answer where they go deeper. -/
def fieldsUpTo (s : Schema) : (depth : Nat) → TypeDef → Option (Option (List FieldDef))
  | _, .object d => some (some d.fields)
  | _, .interface d => some (some d.fields)
  | 0, .union _ => none
  | depth + 1, .union d => do
    let fields ← (d.members.filterMap s.type?).mapM (s.fieldsUpTo depth)
    return some (fields.flatMap (·.getD []))
  | _, _ => some none

/-- The fields that can be selected on a type, where any can. There is no answer where unions list
one another in a circle: they are followed deeper than there are types, so that it is met. -/
def fields? (s : Schema) (t : TypeDef) : Option (Option (List FieldDef)) :=
  s.fieldsUpTo (s.types.length + 1) t

end Schema

end GraphQL
