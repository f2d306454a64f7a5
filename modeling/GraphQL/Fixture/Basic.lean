import GraphQL.InputValue
import GraphQL.Json
import GraphQL.TypeRef.Parser
import GraphQL.Violation

/-!
Fixtures describe schemas, literals and resolvers in JSON, so that an engine can be tried out
without code. This module reads the parts that all descriptions share.
-/

namespace GraphQL.Fixture

inductive Fault where
  /-- The description is not of the form that is asked for. -/
  | malformed (what : String)
  /-- A type in it does not parse. -/
  | parse (failure : Parser.Failure)
  /-- The schema it describes does not fit together. -/
  | violation (v : Violation)

/-- What a description gives, or why it cannot be read. -/
abbrev Read := Except Fault

def malformed {α : Type} (what : String) : Read α := .error (.malformed what)

/-- A field of a description that is present and not null. -/
def field? (j : Json) (key : String) : Option Json :=
  match j.field? (lit key) with
  | some .null => none
  | found => found

/-- A field that has to be there. -/
def field (j : Json) (key : String) : Read Json :=
  match j.field? (lit key) with
  | some found => .ok found
  | none => malformed key

/-- A text. -/
def text : Json → Read Text
  | .string t => .ok t
  | _ => malformed "text"

def int : Json → Read Int
  | .int n => .ok n
  | _ => malformed "integer"

/-- An integer from zero on, in 64 bits. -/
def nat (j : Json) : Read Nat := (fun n => (n % 0x10000000000000000).toNat) <$> int j

/-- A truth value; anything else counts as false. -/
def isTrue : Json → Bool
  | .bool b => b
  | _ => false

/-- The items of a list; nothing else has any. -/
def items : Json → List Json
  | .array js => js
  | _ => []

def texts (js : List Json) : Read (List Text) := js.mapM text

def text? (j : Json) (key : String) : Option Text :=
  match field? j key with
  | some (.string t) => some t
  | _ => none

/-- A text under a key, empty if there is none. -/
def textAt (j : Json) (key : String) : Text := (text? j key).getD []

/-- A truth value under a key, false if there is none. -/
def flagAt (j : Json) (key : String) : Bool := ((field? j key).map isTrue).getD false

/-- The items of the list under a key. -/
def itemsAt (j : Json) (key : String) : List Json := ((field? j key).map items).getD []

/-- A position: byte offset, line, column. -/
def position : Json → Read Position
  | .array [i, l, c] => return ⟨← nat i, ← nat l, ← nat c⟩
  | _ => malformed "position"

/-- A span: start and end in one list. -/
def span : Json → Read Span
  | .array [a, b, c, d, e, f] =>
    return ⟨⟨← nat a, ← nat b, ← nat c⟩, ⟨← nat d, ← nat e, ← nat f⟩⟩
  | _ => malformed "span"

/-- The span under `s`, if there is one. -/
def spanAt (j : Json) : Read Span :=
  match field? j "s" with
  | some s => span s
  | none => .ok .unlocated

/-- A name, with or without its span. -/
def name : Json → Read (Located Text)
  | .string t => .ok (.unlocated t)
  | .array [t, s] => return ⟨← text t, ← span s⟩
  | _ => malformed "name"

/-- A type as written; what follows it is left. -/
def writtenType (t : Text) : Read TypeRef := do
  let tokens ← (Tokens.ofText t).mapError fun e => .parse (.refused e)
  match Parser.typeRef.run tokens with
  | .ok r _ => return r.value
  | .error e _ => .error (.parse e)

mutual

/-- A type: as written, or a list that may say how many items are expected. -/
def type : Json → Read TypeRef
  | .string t => writtenType t
  | .object fields => do listType (← (field? (.object fields) "size").mapM nat) fields
  | _ => malformed "type"

/-- A list type of the expected size. -/
def listType (size : Option Nat) : List (Text × Json) → Read TypeRef
  | [] => malformed "type"
  | (key, element) :: rest =>
    if key == lit "list" then return .list (← type element) size false
    else if key == lit "nonNullList" then return .list (← type element) size true
    else listType size rest

end

def scalar? (kind : Text) : Json → Option Scalar
  | .int n =>
    if kind == lit "int" then some (.int (Int32.ofInt n))
    else if kind == lit "float" then some (.float (.ofInt n)) else none
  | .float x => if kind == lit "float" then some (.float x) else none
  | .string t => if kind == lit "string" then some (.string t) else none
  | .bool b => if kind == lit "bool" then some (.boolean b) else none
  | _ => none

/-- A literal that holds no other: null, an enum value, a variable or a scalar. -/
def leaf (kind : Text) (content : Json) : Read InputValue :=
  if kind == lit "null" then .ok .null
  else if kind == lit "enum" then .enum <$> text content
  else if kind == lit "var" then .var <$> text content
  else match scalar? kind content with
    | some s => .ok (.scalar s)
    | none => malformed "literal"

/-- The item of a literal in a list, with its span. -/
def locate (j : Json) (v : InputValue) : Read (Located InputValue) := return ⟨v, ← spanAt j⟩

/-- A literal nested less than `fuel` deep. It tells its kind `k` and its content `v`. -/
def literalUpTo : (fuel : Nat) → Json → Read InputValue
  | 0, _ => malformed "literal"
  | fuel + 1, j => do
    let kind := textAt j "k"
    let content := (j.field? (lit "v")).getD .null
    if kind == lit "list" then
      .list <$> (items content).mapM fun item => do locate item (← literalUpTo fuel item)
    else if kind == lit "object" then
      .object <$> (items content).mapM fun entry =>
        match entry with
        | .array [key, v] => do return (← name key, ← locate v (← literalUpTo fuel v))
        | _ => malformed "entry"
    else leaf kind content

/-- A literal. It lies no deeper than its description. -/
def literal (j : Json) : Read InputValue := literalUpTo j.depth j

def variableValues : Option Json → Read Variables
  | some (.object fields) => fields.mapM fun (k, v) => do return (k, ← literal v)
  | _ => .ok []

end GraphQL.Fixture
