import GraphQL.Json.Response

/-!
Requests as they arrive over a network: a JSON object, or a list of them that is executed as a
batch.
-/

namespace GraphQL

inductive BodyError where
  | notAnObject
  | notARequest
  | missingQuery
  | operationName
  | vars (e : NotAnObject)
  /-- A single request was asked of a body that holds another number of them. -/
  | notSingle
deriving DecidableEq, Repr

namespace BodyError

def message : BodyError → Text
  | notAnObject => lit "GraphQL request must be a JSON object"
  | notARequest => lit "GraphQL request must be a JSON object or an array of objects"
  | missingQuery => lit "Missing GraphQL query"
  | operationName => lit "operationName must be a string"
  | vars e => e.message
  | notSingle => lit "A single request needs exactly one query"

end BodyError

structure Request where
  query : Text
  operationName : Option Text
  vars : Variables

namespace Request

/-- The name of the operation, if one is given. -/
def readName : Option Json → Except BodyError (Option Text)
  | none => .ok none
  | some .null => .ok none
  | some (.string name) => .ok (some name)
  | some _ => .error .operationName

/-- The values of variables, if any are given. -/
def readVariables : Option Json → Except BodyError Variables
  | none => .ok []
  | some j => (Variables.ofJson j).mapError .vars

def ofJson : Json → Except BodyError Request
  | .object fields =>
    match fields.lookup (lit "query") with
    | some (.string query) => do
      let name ← readName (fields.lookup (lit "operationName"))
      return ⟨query, name, ← readVariables (fields.lookup (lit "variables"))⟩
    | _ => .error .missingQuery
  | _ => .error .notAnObject

/-- What a request asks for in a context. -/
def options (r : Request) (context : Option Text) : RequestOptions :=
  ⟨r.operationName, ⟨r.vars, context, false⟩, some Rules.builtin⟩

def execute {σ : Type} (r : Request) (s : Service σ) (context : Option Text) : Engine σ Response :=
  (s.execute r.query (r.options context)).run

end Request

/-- A body: a single request, or a batch. -/
structure RequestBody where
  requests : List Request
  isBatch : Bool

inductive ResponseBody where
  | single (response : Response)
  | batch (responses : List Response)

namespace ResponseBody

/-- The responses of a body, in the order of the requests. -/
def responses : ResponseBody → List Response
  | single response => [response]
  | batch responses => responses

def isOk (body : ResponseBody) : Bool := body.responses.all Response.isOk

/-- A response to a body as JSON. -/
def toJson : ResponseBody → Json
  | single response => response.toJson
  | batch responses => .array (responses.map Response.toJson)

end ResponseBody

namespace RequestBody

/-- The body in a JSON object or list. -/
def ofJson : Json → Except BodyError RequestBody
  | .object fields => return ⟨[← Request.ofJson (.object fields)], false⟩
  | .array items => return ⟨← items.mapM Request.ofJson, true⟩
  | _ => .error .notARequest

/-- The message about a batch that is executed. -/
def executing (body : RequestBody) : Console.Message :=
  ⟨.debug, [.text (lit "executing batch of"), .integer body.requests.length,
    .text (lit "request(s)")]⟩

/-- Executes the requests of a body one after another. -/
def execute {σ : Type} (body : RequestBody) (s : Service σ) (context : Option Text) :
    ExceptT BodyError (Engine σ) ResponseBody := do
  if body.isBatch then
    ExceptT.lift do
      Engine.say [body.executing]
      return .batch (← body.requests.mapM fun r => r.execute s context)
  else match body.requests with
    | [r] => ExceptT.lift (.single <$> r.execute s context)
    | _ => throw .notSingle

end RequestBody

end GraphQL
