import GraphQL.Execution.LookAhead
import GraphQL.Execution.Operation
import GraphQL.Fixture.Basic
import GraphQL.Json.Value
import GraphQL.Resolver

/-!
Resolvers described in JSON. Their world is a record of the paths that were resolved and a journal
that they can write to.
-/

namespace GraphQL.Fixture

/-- The paths that were resolved, in order, and the journal. -/
structure World where
  trace : List Text
  journal : List Text

/-- A world in which nothing has happened. -/
def World.start : World := ⟨[], []⟩

/-- A text that may be missing, or null. -/
def textValue? (t : Option Text) : Value := (t.map .ofText).getD .null

def natValue (n : Nat) : Value := .scalar (.int (Int32.ofNat n))

/-- The entry of an argument, or of a field inside it that the keys lead to. -/
def argumentAt (args : FieldArguments) (name : Text) (keys : List Text) : Option InputValue :=
  keys.foldl (fun found key => found.bind (·.field? key)) (Keyed.get? args name)

/-- An argument converted to a kind of scalar, or shown as it is. -/
def converted (kind : Text) (v : InputValue) : Value :=
  let scalar? : Option Scalar :=
    if kind == lit "int" then v.toInt?.map .int
    else if kind == lit "float" then v.toFloat?.map .float
    else if kind == lit "bool" then v.toBool?.map .boolean
    else if kind == lit "string" then v.toString?.map .string
    else some (.string v.toText)
  (scalar?.map .scalar).getD .null

def argumentText? (args : FieldArguments) (name : Json) : Option Text :=
  match name with
  | .string name => (Keyed.get? args name).bind InputValue.toString?
  | _ => none

/-- The texts of those arguments that are present, by name. -/
def argumentTexts (args : FieldArguments) (names : List Text) : Keyed Value :=
  names.foldl (fun shown name =>
    match Keyed.get? args name with
    | some v => Keyed.put shown name (.ofText v.toText)
    | none => shown) []

/-- The texts of a list; anything else in it is left out. -/
def textsOf (j : Json) : List Text := (items j).filterMap fun
  | .string t => some t
  | _ => none

mutual

/-- What look-ahead shows, with the arguments and the children that are asked for. -/
def lookValue (argNames childNames : List Text) : LookAhead → Value
  | ⟨name, aliasName, arguments, appliesTo, children⟩ =>
    .object [(lit "name", .ofText name), (lit "alias", textValue? aliasName),
      (lit "key", .ofText (aliasName.getD name)), (lit "appliesTo", textValue? appliesTo),
      (lit "argc", natValue arguments.length),
      (lit "args", .object (argumentTexts arguments argNames)),
      (lit "has", .object (childNames.foldl (fun shown child => Keyed.put shown child
        (textValue? ((children.find? (·.name == child)).map LookAhead.responseKey))) [])),
      (lit "children", .list (lookValues argNames childNames children))]

def lookValues (argNames childNames : List Text) : List LookAhead → List Value
  | [] => []
  | l :: rest => lookValue argNames childNames l :: lookValues argNames childNames rest

end

/-- Looks ahead, for objects of one type if so described. -/
def look (j : Json) (c : Cursor) : Except Violation Value := do
  let l ← c.lookAhead
  let l := match text? j "for" with
    | some typeName => l.narrow typeName
    | none => l
  return lookValue (textsOf ((j.field? (lit "args")).getD .null))
    (textsOf ((j.field? (lit "has")).getD .null)) l

/-- A segment of a path as a value. -/
def segmentValue : PathSegment → Value
  | .key name => .ofText name
  | .index i => natValue i

/-- What a cursor tells about itself, by the key that asks for it. -/
def cursorValue? (key : Text) (c : Cursor) : Option (Except Violation Value) :=
  if key == lit "path" then some (.ok (.list (c.path.segments.map segmentValue)))
  else if key == lit "loc" then some (.ok (.ofText c.location.toText))
  else if key == lit "ctype" then some (.ok (.ofText c.currentType.toText))
  else if key == lit "concurrent" then some (.ok (.scalar (.boolean c.isConcurrent)))
  else if key == lit "ctx" then some (.ofText <$> c.contextText)
  else if key == lit "sel" then
    some (.ok ((c.selections.map fun s => natValue s.length).getD .null))
  else none

def reported (j : Json) (next : Action World) : Action World :=
  match j with
  | .string message => .report (.ofText message) none next
  | .array (.string message :: extensions :: place :: _) =>
    .report (.of message (.ofJson extensions)) (position place).toOption next
  | _ => next

/-- Writes to the journal and ends in all of it. -/
def written (entry : Text) : Action World :=
  .update (fun w => { w with journal := w.journal ++ [entry] }) fun w =>
    .value (.list (w.journal.map .ofText))

/-- The members of a rule in the order in which the first one decides. -/
def members : List String :=
  ["push", "v", "obj", "into", "opt", "list", "err", "crash", "invariant", "arg", "args", "switch",
    "journal", "var", "frag", "look", "path", "loc", "ctype", "concurrent", "ctx", "sel"]

/-- The member that decides, with what it holds. -/
def decisive? (j : Json) : Option (Text × Json) :=
  members.findSome? fun key => (j.field? (lit key)).map (lit key, ·)

/-- What a rule without other resolvers does. -/
def simpleRule (key : Text) (j : Json) (rule : Json) (args : FieldArguments) (c : Cursor) :
    Action World :=
  if key == lit "v" then .value (.ofJson j)
  else if key == lit "err" then
    .fail (.of (textAt rule "err") (((rule.field? (lit "ext")).map .ofJson).getD .null))
  else if key == lit "crash" then .fail (.ofText (textAt rule "crash"))
  else if key == lit "invariant" then .violate (.raised (textAt rule "invariant"))
  else if key == lit "arg" then
    match textsOf j with
    | name :: kind :: keys => .value (((argumentAt args name keys).map (converted kind)).getD .null)
    | _ => .value .null
  else if key == lit "args" then
    .value (.object ((argumentTexts args (textsOf j)).foldl
      (fun shown (k, v) => Keyed.put shown k v) [(lit "#", natValue args.length)]))
  else if key == lit "journal" then written ((argumentText? args j).getD [])
  else if key == lit "var" then
    .value (textValue? ((Keyed.get? c.scope.vars (textAt rule "var")).map (·.toText)))
  else if key == lit "frag" then
    .value (textValue? ((c.scope.fragment? (textAt rule "frag")).map (·.condition.value)))
  else if key == lit "look" then .ofExcept .value (look j c)
  else .ofExcept .value ((cursorValue? key c).getD (.ok .null))

/-- What a rule does, given an argument list and a cursor. -/
abbrev RuleReader := Json → FieldArguments → Cursor → Action World

/-- Follows a reference to one of the named objects. -/
def dereference (objects : Json) (j : Json) : Json :=
  match j.field? (lit "ref") with
  | some (.string key) => (objects.field? key).getD .null
  | _ => j

/-- The rule under a key, in place of what is done otherwise. -/
def override (read : RuleReader) (j : Option Json) : Override World :=
  match j with
  | some rule => .custom (read rule [])
  | none => .none

/-- Notes the path of a field. -/
def traced (c : Cursor) (next : Action World) : Action World :=
  .update (fun w => { w with trace := w.trace ++ [c.path.segments.toText] }) fun _ => next

/-- An object, given how its rules are read. -/
def node (read : RuleReader) (objects : Json) (described : Json) : Node World :=
  let j := dereference objects described
  let typeName := textAt j "type"
  .mk typeName ((text? j "concrete").getD typeName)
    (fun name args c => traced c <|
      match (field? j "fields").bind (·.field? name) with
      | some rule => read rule args c
      | none => .violate (.fieldNotResolved name typeName))
    (fun typeName => override read ((field? j "into").bind (·.field? typeName)))
    (override read (j.field? (lit "leaf")))

/-- An object, or none for null. -/
def node? (read : RuleReader) (objects : Json) : Json → Option (Node World)
  | .null => none
  | j => some (node read objects j)

/-- What a rule does. References let objects hold one another, so that resolving goes on until a
request has no more selections; `fuel` bounds how far. -/
def ruleUpTo (objects : Json) : (fuel : Nat) → RuleReader
  | 0, _, _, _ => .violate (.raised (lit "too deep"))
  | fuel + 1, rule, args, c =>
    let read := ruleUpTo objects fuel
    let member (key : String) : Json := (rule.field? (lit key)).getD .null
    match decisive? rule with
    | none => .value .null
    | some (key, j) =>
      if key == lit "push" then (items j).foldr reported (read (member "then") args c)
      else if key == lit "obj" then .ofNode (node? read objects j)
      else if key == lit "into" then .resolveInto (node read objects j) .value
      else if key == lit "opt" then .ofNode? (node? read objects j)
      else if key == lit "list" then .resolveList ((items j).map (node? read objects)) .value
      else if key == lit "switch" then
        let chosen := (argumentText? args j).bind fun text => (member "cases").field? text
        read (chosen.getD (member "else")) args c
      else simpleRule key j rule args c

/-- What a rule does. Nobody selects ten thousand levels. -/
def rule (objects : Json) : RuleReader := ruleUpTo objects 10000

/-- The events of a countdown, or why there are none. -/
def countdown (n : Int32) : EventSource World :=
  if n < 0 then
    ⟨.fail (.ofText (lit "Cannot count down from a negative number")), fun _ => none⟩
  else
    ⟨.value .null, fun i => if i < n.toInt.toNat then some (.value (natValue (n.toInt.toNat - i)))
      else none⟩

/-- The events of a stream after it is opened. -/
def events (read : RuleReader) (j : Json) (args : FieldArguments) (c : Cursor) :
    EventSource World :=
  match j.field? (lit "countdown") with
  | some name =>
    let given := match name with
      | .string name => (Keyed.get? args name).bind InputValue.toInt?
      | _ => none
    countdown (given.getD 0)
  | none =>
    ⟨.value .null, fun i => do
      let rule ← (itemsAt j "events")[i]?
      if (rule.field? (lit "end")).isSome then none else some (read rule args c)⟩

/-- A stream. What is done when it is opened comes first. -/
def stream (read : RuleReader) (j : Json) (args : FieldArguments) (c : Cursor) :
    EventSource World :=
  let source := events read j args c
  match j.field? (lit "open") with
  | some rule => { source with opening := (read rule args c).andThen fun _ => source.opening }
  | none => source

def subscriptionRoot (objects : Json) (described : Json) : SubscriptionRoot World :=
  let j := dereference objects described
  let typeName := textAt j "type"
  ⟨typeName, (text? j "concrete").getD typeName, fun name args c =>
    match (field? j "streams").bind (·.field? name) with
    | some s =>
      let source := stream (rule objects) s args c
      { source with opening := traced c source.opening }
    | none => ⟨traced c (.violate (.notSubscriptionField name typeName)), fun _ => none⟩⟩

/-- A schema with the roots that are described. -/
def service (schema : Schema) (j : Json) : Service World :=
  let objects := (field? j "objects").getD .null
  let root (key : String) : Option Json := (field? j "roots").bind fun roots => field? roots key
  ⟨schema, (root "query").map (node (rule objects) objects),
    (root "mutation").map (node (rule objects) objects),
    (root "subscription").map (subscriptionRoot objects)⟩

end GraphQL.Fixture
