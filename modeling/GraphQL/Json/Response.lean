import GraphQL.Json.Document
import GraphQL.Request

/-!
Responses and their errors as JSON. Places in the document are counted from one.
-/

namespace GraphQL

/-- A step into a response as JSON. -/
def PathSegment.toJson : PathSegment → Json
  | key name => .string name
  | index i => .nat i

namespace ExecutionError

/-- An error as clients see it. Extensions are left out if they are null. -/
def toJson (e : ExecutionError) : Json :=
  .record ([("message", .string e.message), ("locations", .array [e.location.toLocationJson]),
    ("path", .array (e.path.map PathSegment.toJson))] ++
    if e.error.extensions.isNull then [] else [("extensions", e.error.extensions.toJson)])

end ExecutionError

/-- A report of a rule as clients see it. -/
def RuleError.toJson (e : RuleError) : Json :=
  .record [("message", .string e.message),
    ("locations", .array (e.locations.map Position.toLocationJson))]

/-- An error of a request as the list of errors that clients see. -/
def RequestError.toJson : RequestError → Json
  | parse error => .array [.record [("message", .string error.value.message),
      ("locations", .array [error.span.start.toLocationJson])]]
  | validation errors => .array (errors.map RuleError.toJson)
  | e => .array [.record [("message", .string e.message)]]

/-- A response: data and errors, if there are any. -/
def Output.toJson (out : Output) : Json :=
  .record ([("data", out.data.toJson)] ++
    if out.errors.isEmpty then []
    else [("errors", .array (out.errors.map ExecutionError.toJson))])

/-- How a request ended. -/
abbrev Response := Except RequestError Output

namespace Response

def isOk : Response → Bool
  | .ok _ => true
  | .error _ => false

def toJson : Response → Json
  | .ok out => out.toJson
  | .error e => .record [("errors", e.toJson)]

end Response

end GraphQL
