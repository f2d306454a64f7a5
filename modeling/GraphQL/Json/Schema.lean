import GraphQL.Json.Document
import GraphQL.Schema.Position

/-!
Definitions of a schema as JSON, for tools.
-/

namespace GraphQL

/-- Null for what is current; otherwise a list of the reason, which may be null. -/
def Deprecation.toJson : Deprecation → Json
  | current => .null
  | deprecated reason => .array [Json.ofOption .string reason]

def ArgumentDef.toJson (a : ArgumentDef) : Json :=
  .record [("name", .string a.name), ("desc", Json.ofOption .string a.description),
    ("type", .string a.type.toText), ("default", Json.ofOption InputValue.tagged a.default),
    ("builtin", .bool (isReservedName a.name))]

def FieldDef.jsonFields (f : FieldDef) : List (String × Json) :=
  [("name", .string f.name), ("desc", Json.ofOption .string f.description),
    ("type", .string f.type.toText),
    ("args", Json.ofOption (fun args => .array (args.map ArgumentDef.toJson)) f.arguments),
    ("deprecated", f.deprecation.toJson), ("builtin", .bool (isReservedName f.name))]

def FieldDef.toJson (f : FieldDef) : Json := .record f.jsonFields

def DirectiveDef.toJson (d : DirectiveDef) : Json :=
  .record [("name", .string d.name), ("desc", Json.ofOption .string d.description),
    ("locations", .texts (d.locations.map DirectiveLocation.toText)),
    ("args", .array (d.arguments.map ArgumentDef.toJson)), ("repeatable", .bool d.isRepeatable)]

namespace TypeDef

/-- What a type shows of its parts. -/
def partsJson : TypeDef → List (String × Json)
  | object d => objectParts d
  | interface d => objectParts d
  | inputObject d => [("inputs", .array (d.fields.map ArgumentDef.toJson))]
  | scalar d => [("url", Json.ofOption .string d.url)]
  | enum d => [("values", .array (d.values.map fun v =>
      .array [.string v.name, Json.ofOption .string v.description, v.deprecation.toJson]))]
  | union _ => []
where
  /-- The parts of an object or interface. -/
  objectParts (d : ObjectDef) : List (String × Json) :=
    [("own", .array (d.fields.map FieldDef.toJson)), ("implements", .texts d.interfaces)]

/-- What a type can be used for. -/
def flags (t : TypeDef) : List Bool :=
  [t.isComposite, t.isLeaf, t.isAbstract, t.isInput, t.isBuiltin]

end TypeDef

namespace TypeEntry

/-- A type as JSON, given how its kind shows and what else to show before its parts. -/
def toJson (e : TypeEntry) (kind : Json) (extra : List (String × Json)) : Json :=
  let flags := (e.definition?.map TypeDef.flags).getD (List.replicate 5 false)
  .record ([("name", Json.ofOption .string e.name?),
    ("desc", Json.ofOption .string (e.definition?.bind TypeDef.description)), ("kind", kind),
    ("asType", .string e.toRef.toText), ("flags", .array (flags.map .bool))] ++ extra ++
    (e.definition?.map TypeDef.partsJson).getD [])

end TypeEntry

namespace TypePosition

/-- The outermost layer of a position: its name, the type if it is concrete, what is inside
otherwise, and the expected size of a list. -/
def layer : TypePosition → String × Option TypeDef × Option TypePosition × Option Nat
  | concrete t => ("Concrete", some t, none, none)
  | nonNull inner => ("NonNull", none, some inner, none)
  | list element size => ("List", none, some element, size)

def toJson (p : TypePosition) : Json :=
  let (kind, t, inner, size) := p.layer
  .record [("text", .string p.toText), ("kind", .string (lit kind)), ("nonNull", .bool p.isNonNull),
    ("concrete", Json.ofOption (fun t => .string t.name) t),
    ("of", Json.ofOption (fun p => .string p.toText) inner),
    ("contents", Json.ofOption (fun p => .string p.toText) p.element?),
    ("innermost", .string p.innermost.name), ("size", Json.ofOption .nat size)]

end TypePosition

end GraphQL
