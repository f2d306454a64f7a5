import GraphQL.Document
import GraphQL.Json.Value

/-!
Documents as JSON, for tools: every node with the span it was read from.
-/

namespace GraphQL

/-- What is there, or null. -/
def Json.ofOption {α : Type} (f : α → Json) : Option α → Json
  | some a => f a
  | none => .null

def Json.nat (n : Nat) : Json := .int n

def Json.texts (ts : List Text) : Json := .array (ts.map .string)

namespace Position

/-- Byte offset, line and column. -/
def toJson (p : Position) : Json := .array [.nat p.index, .nat p.line, .nat p.column]

/-- A position as clients see it: line and column counted from one. -/
def toLocationJson (p : Position) : Json :=
  .record [("line", .nat (wrap (p.line + 1))), ("column", .nat (wrap (p.column + 1)))]

end Position

namespace Span

/-- Start and end in one list. -/
def toJson (s : Span) : Json :=
  .array [.nat s.start.index, .nat s.start.line, .nat s.start.column,
    .nat s.stop.index, .nat s.stop.line, .nat s.stop.column]

end Span

/-- A name with its span. -/
def Located.nameJson (n : Located Text) : Json := .array [.string n.value, n.span.toJson]

/-- A reference to a type with its span. -/
def Located.typeJson (t : Located TypeRef) : Json := .array [.string t.value.toText, t.span.toJson]

namespace InputValue

def scalarJson : Scalar → List (String × Json)
  | .int n => [("k", .string (lit "int")), ("v", .int n.toInt)]
  | .float x => [("k", .string (lit "float")), ("v", .float x)]
  | .string t => [("k", .string (lit "string")), ("v", .string t)]
  | .boolean b => [("k", .string (lit "bool")), ("v", .bool b)]

mutual

/-- The kind `k` and the content `v` of a literal. -/
def taggedFields : InputValue → List (String × Json)
  | null => [("k", .string (lit "null"))]
  | scalar s => scalarJson s
  | enum name => [("k", .string (lit "enum")), ("v", .string name)]
  | var name => [("k", .string (lit "var")), ("v", .string name)]
  | list items => [("k", .string (lit "list")), ("v", .array (taggedItems items))]
  | object fields => [("k", .string (lit "object")), ("v", .array (taggedEntries fields))]

/-- The items of a list with their spans. -/
def taggedItems : List (Located InputValue) → List Json
  | [] => []
  | ⟨v, span⟩ :: rest => .record (v.taggedFields ++ [("s", span.toJson)]) :: taggedItems rest

/-- The fields of an object with their spans. -/
def taggedEntries : List (Located Text × Located InputValue) → List Json
  | [] => []
  | (key, ⟨v, span⟩) :: rest =>
    .array [key.nameJson, .record (v.taggedFields ++ [("s", span.toJson)])] :: taggedEntries rest

end

/-- A literal as JSON that tells its kind. -/
def tagged (v : InputValue) : Json := .record v.taggedFields

end InputValue

/-- A literal that tells its kind, with its span. -/
def Located.inputJson (v : Located InputValue) : Json :=
  .record (v.value.taggedFields ++ [("s", v.span.toJson)])

/-- Variables sorted by name. -/
def Variables.toJson (vars : Variables) : Json :=
  .array ((Keyed.sorted vars).map fun (name, v) => .array [.string name, v.tagged])

/-- Written arguments, or null. -/
def Arguments.toJson : Option (Located Arguments) → Json :=
  Json.ofOption fun args => .record [
    ("items", .array (args.value.map fun (n, v) => .array [n.nameJson, v.inputJson])),
    ("s", args.span.toJson)]

/-- Written directives, or null. -/
def Directives.toJson : Option Directives → Json :=
  Json.ofOption fun ds => .array (ds.map fun d => .record [("name", d.value.name.nameJson),
    ("args", Arguments.toJson d.value.arguments), ("s", d.span.toJson)])

namespace Selection

mutual

def toJson : Selection → Json
  | field f none => .record (headFields f ++ [("sel", .null), ("s", f.span.toJson)])
  | field f (some body) =>
    .record (headFields f ++ [("sel", .array (listToJson body)), ("s", f.span.toJson)])
  | spread s => .record [("spread", s.name.nameJson), ("dirs", Directives.toJson s.directives),
      ("s", s.span.toJson)]
  | inline h body => .record [("inline", Json.ofOption Located.nameJson h.condition),
      ("dirs", Directives.toJson h.directives), ("sel", .array (listToJson body)),
      ("s", h.span.toJson)]

def listToJson : List Selection → List Json
  | [] => []
  | s :: rest => s.toJson :: listToJson rest

/-- What a field shows before its selections. -/
def headFields (f : FieldHead) : List (String × Json) :=
  [("field", f.name.nameJson), ("alias", Json.ofOption Located.nameJson f.aliasName),
    ("key", .string f.responseName), ("args", Arguments.toJson f.arguments),
    ("dirs", Directives.toJson f.directives)]

end

end Selection

/-- The declaration of a variable as JSON. -/
def VariableDef.toJson (d : VariableDef) : Json :=
  .record [("name", d.name.nameJson), ("type", d.type.typeJson),
    ("default", Json.ofOption Located.inputJson d.default),
    ("dirs", Directives.toJson d.directives)]

def Definition.toJson : Definition → Json
  | operation op => .record [("operation", .string op.type.toText),
      ("name", Json.ofOption Located.nameJson op.name),
      ("vars", Json.ofOption (fun vs => .record [
        ("items", .array (vs.value.map VariableDef.toJson)), ("s", vs.span.toJson)])
        op.declaredVars),
      ("dirs", Directives.toJson op.directives),
      ("sel", .array (Selection.listToJson op.selections)), ("s", op.span.toJson)]
  | fragment f => .record [("fragment", f.name.nameJson), ("on", f.condition.nameJson),
      ("dirs", Directives.toJson f.directives),
      ("sel", .array (Selection.listToJson f.selections)), ("s", f.span.toJson)]

end GraphQL
