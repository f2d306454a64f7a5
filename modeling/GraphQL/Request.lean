import GraphQL.Document.Parser
import GraphQL.Execution.Subscription
import GraphQL.Validation.Rules

/-!
Requests: a source is parsed, validated and executed. A request that gets no further than one of the
first two steps, or does not say which operation it means, ends in an error of its own. Parsing that
never returns takes the place of a broken invariant.
-/

namespace GraphQL

inductive RequestError where
  | parse (error : Located ParseError)
  | validation (errors : List RuleError)
  | noOperation
  | multipleOperations
  | unknownOperation
  | isSubscription
  | notSubscription
deriving DecidableEq, Repr

namespace RequestError

/-- Joins messages. There is no separator as long as nothing stands before it. -/
def joinMessages (errors : List RuleError) : Text :=
  Text.chain (lit "; ") (errors.map RuleError.message)

def message : RequestError → Text
  | parse error => error.value.message
  | validation errors => joinMessages errors
  | noOperation => lit "Must provide an operation"
  | multipleOperations =>
    lit "Must provide operation name if query contains multiple operations"
  | unknownOperation => lit "Unknown operation"
  | isSubscription => lit "Expected query, got subscription"
  | notSubscription => lit "Expected subscription, got query"

/-- An error as shown: one of parsing with its place, counted from zero. -/
def toText : RequestError → Text
  | parse error => shownAt error.value.message error.span.start
  | e => e.message

end RequestError

namespace Document

def onlyOperation (doc : Document) : Except RequestError Operation :=
  match doc.operations with
  | [] => .error .noOperation
  | [op] => .ok op
  | _ => .error .multipleOperations

/-- The last operation of a name. -/
def operationNamed (doc : Document) (name : Text) : Except RequestError Operation :=
  match doc.operations.reverse.find? fun op => op.name.any (·.value == name) with
  | some op => .ok op
  | none => .error .unknownOperation

def selectOperation (doc : Document) : Option Text → Except RequestError Operation
  | some name => doc.operationNamed name
  | none => doc.onlyOperation

end Document

/-- What a request asks for besides its source. -/
structure RequestOptions where
  operationName : Option Text
  settings : Settings
  /-- The rules to check the document by, if it is to be checked. -/
  validator : Option Validator

/-- A computation that may also end in an error of the request. -/
abbrev Handling (σ : Type) := ExceptT RequestError (Engine σ)

namespace Handling

variable {σ : Type}

def say (messages : List Console.Message) : Handling σ Unit := ExceptT.lift (Engine.say messages)

/-- What may end in an error but has no effects. -/
def ofExcept {α : Type} (x : Except RequestError α) : Handling σ α := ExceptT.mk (pure x)

end Handling

namespace Validator

/-- The message about a document that does not pass. -/
def failed (errors : List RuleError) : Console.Message :=
  ⟨.debug, [.text (lit "validation failed with"), .integer errors.length, .text (lit "error(s)")]⟩

def messages (errors : List RuleError) : List Console.Message :=
  if errors.isEmpty then [] else [failed errors]

end Validator

namespace Service

variable {σ : Type}

def parse (s : Service σ) (source : Text) : Handling σ Document := do
  match Document.ofText s.schema source with
  | .ok doc => return doc
  | .error (.refused e) =>
    Handling.say [⟨.debug, [.text (lit "parse failed:"), .text (RequestError.parse e).toText]⟩]
    throw (.parse e)
  | .error .endless => ExceptT.lift (Engine.ofExcept (.error .endlessUnion))

/-- Checks a document if that is asked for, and finds the operation to execute. -/
def prepare (s : Service σ) (doc : Document) (options : RequestOptions) : Handling σ Operation := do
  if let some v := options.validator then
    let errors := v.validate s.schema doc
    Handling.say (Validator.messages errors)
    unless errors.isEmpty do throw (.validation errors)
  Handling.ofExcept (doc.selectOperation options.operationName)

def executeDocument (s : Service σ) (doc : Document) (options : RequestOptions) :
    Handling σ Output := do
  let op ← s.prepare doc options
  if op.type = .subscription then throw .isSubscription
  ExceptT.lift (s.executeOperation doc op (op.settled options.settings))

def execute (s : Service σ) (source : Text) (options : RequestOptions) : Handling σ Output := do
  s.executeDocument (← s.parse source) options

def subscribe (s : Service σ) (source : Text) (options : RequestOptions) :
    Handling σ (Subscription σ) := do
  let doc ← s.parse source
  let op ← s.prepare doc options
  unless op.type = .subscription do throw .notSubscription
  ExceptT.lift (s.subscribeOperation doc op (op.settled options.settings))

end Service

end GraphQL
