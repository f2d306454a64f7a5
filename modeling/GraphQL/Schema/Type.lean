import GraphQL.InputValue
import GraphQL.Parser.Error
import GraphQL.TypeRef

/-!
The definitions a schema consists of: types with their fields and arguments, and directives.
-/

namespace GraphQL

/-- Whether clients should stop using something, and why. -/
inductive Deprecation where
  | current
  | deprecated (reason : Option Text)

/-- `true` for the names that the language keeps for itself. -/
def isReservedName (name : Text) : Bool := name.take 2 == lit "__"

/-- An argument of a field or directive, or a field of an input object. -/
structure ArgumentDef where
  name : Text
  description : Option Text
  type : TypeRef
  default : Option InputValue

/-- A field of an object or interface. Without arguments it has no argument list at all. -/
structure FieldDef where
  name : Text
  description : Option Text
  arguments : Option (List ArgumentDef)
  type : TypeRef
  deprecation : Deprecation

def FieldDef.argument? (f : FieldDef) (name : Text) : Option ArgumentDef :=
  f.arguments.bind fun args => args.find? (·.name == name)

structure EnumValueDef where
  name : Text
  description : Option Text
  deprecation : Deprecation

/-- A leaf type. `parse` reads a literal or refuses it. -/
structure ScalarDef where
  name : Text
  description : Option Text
  url : Option Text
  parse : Literal → Except Rejection Scalar

/-- A type with fields: an object or an interface. -/
structure ObjectDef where
  name : Text
  description : Option Text
  fields : List FieldDef
  interfaces : List Text

structure UnionDef where
  name : Text
  description : Option Text
  members : List Text

/-- A leaf type with named values. -/
structure EnumDef where
  name : Text
  description : Option Text
  values : List EnumValueDef

/-- An object that clients send. -/
structure InputObjectDef where
  name : Text
  description : Option Text
  fields : List ArgumentDef

inductive TypeDef where
  | scalar (d : ScalarDef)
  | object (d : ObjectDef)
  | interface (d : ObjectDef)
  | union (d : UnionDef)
  | enum (d : EnumDef)
  | inputObject (d : InputObjectDef)

/-- The kinds of types, the wrappers among them. -/
inductive TypeKind where
  | scalar
  | object
  | interface
  | union
  | enum
  | inputObject
  | list
deriving DecidableEq, Repr

def TypeKind.toText : TypeKind → Text
  | scalar => lit "SCALAR"
  | object => lit "OBJECT"
  | interface => lit "INTERFACE"
  | union => lit "UNION"
  | enum => lit "ENUM"
  | inputObject => lit "INPUT_OBJECT"
  | list => lit "LIST"

namespace TypeDef

def name : TypeDef → Text
  | scalar d => d.name
  | object d => d.name
  | interface d => d.name
  | union d => d.name
  | enum d => d.name
  | inputObject d => d.name

def description : TypeDef → Option Text
  | scalar d => d.description
  | object d => d.description
  | interface d => d.description
  | union d => d.description
  | enum d => d.description
  | inputObject d => d.description

def kind : TypeDef → TypeKind
  | scalar _ => .scalar
  | object _ => .object
  | interface _ => .interface
  | union _ => .union
  | enum _ => .enum
  | inputObject _ => .inputObject

def ownFields : TypeDef → List FieldDef
  | object d => d.fields
  | interface d => d.fields
  | _ => []

def field? (t : TypeDef) (name : Text) : Option FieldDef :=
  t.ownFields.find? (·.name == name)

/-- The field of a name of an input object. -/
def inputField? (t : TypeDef) (name : Text) : Option ArgumentDef :=
  match t with
  | inputObject d => d.fields.find? (·.name == name)
  | _ => none

def isObject : TypeDef → Bool
  | object _ => true
  | _ => false

/-- `true` for a type that stands for several object types. -/
def isAbstract : TypeDef → Bool
  | interface _ => true
  | union _ => true
  | _ => false

/-- `true` for a type that selections apply to. -/
def isComposite (t : TypeDef) : Bool := t.isObject || t.isAbstract

/-- `true` for a type without parts. -/
def isLeaf : TypeDef → Bool
  | scalar _ => true
  | enum _ => true
  | _ => false

/-- `true` for a type that clients can send. -/
def isInput : TypeDef → Bool
  | inputObject _ => true
  | t => t.isLeaf

def scalar? : TypeDef → Option ScalarDef
  | scalar d => some d
  | _ => none

/-- `true` for the types that every schema has. -/
def isBuiltin (t : TypeDef) : Bool :=
  isReservedName t.name ||
    [lit "Boolean", lit "String", lit "Int", lit "Float", lit "ID"].contains t.name

end TypeDef

inductive DirectiveLocation where
  | query
  | mutation
  | subscription
  | field
  | fragmentDefinition
  | fragmentSpread
  | inlineFragment
  | variableDefinition
  | scalar
  | fieldDefinition
  | enumValue
  | argumentDefinition
  | inputFieldDefinition
deriving DecidableEq, Repr

def DirectiveLocation.toText : DirectiveLocation → Text
  | query => lit "QUERY"
  | mutation => lit "MUTATION"
  | subscription => lit "SUBSCRIPTION"
  | field => lit "FIELD"
  | fragmentDefinition => lit "FRAGMENT_DEFINITION"
  | fragmentSpread => lit "FRAGMENT_SPREAD"
  | inlineFragment => lit "INLINE_FRAGMENT"
  | variableDefinition => lit "VARIABLE_DEFINITION"
  | scalar => lit "SCALAR"
  | fieldDefinition => lit "FIELD_DEFINITION"
  | enumValue => lit "ENUM_VALUE"
  | argumentDefinition => lit "ARGUMENT_DEFINITION"
  | inputFieldDefinition => lit "INPUT_FIELD_DEFINITION"

structure DirectiveDef where
  name : Text
  description : Option Text
  locations : List DirectiveLocation
  arguments : List ArgumentDef
  isRepeatable : Bool

end GraphQL
