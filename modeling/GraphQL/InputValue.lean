import GraphQL.Keyed
import GraphQL.Source.Position
import GraphQL.Value.Scalar

/-!
Values as written in a document: arguments, defaults and the values of variables. They may refer to
variables, and parts of lists and objects remember where they were read.
-/

namespace GraphQL

/-- A literal. Keys of an object may repeat; the first entry under a key counts. -/
inductive InputValue where
  | null
  | scalar (s : Scalar)
  | enum (name : Text)
  | var (name : Text)
  | list (items : List (Located InputValue))
  | object (fields : List (Located Text × Located InputValue))
deriving Inhabited

abbrev Variables := Keyed InputValue

namespace InputValue

/-- Induction over what stands in a value. -/
@[induction_eliminator]
theorem induct {motive : InputValue → Prop} (null : motive .null)
    (scalar : ∀ s, motive (.scalar s)) (enum : ∀ name, motive (.enum name))
    (var : ∀ name, motive (.var name))
    (list : ∀ items : List (Located InputValue), (∀ v ∈ items, motive v.value) →
      motive (.list items))
    (object : ∀ fields : List (Located Text × Located InputValue),
      (∀ kv ∈ fields, motive kv.2.value) → motive (.object fields)) (v : InputValue) : motive v :=
  @InputValue.rec motive (fun items => ∀ v ∈ items, motive v.value)
    (fun fields => ∀ kv ∈ fields, motive kv.2.value) (fun v => motive v.value)
    (fun kv => motive kv.2.value) null scalar enum var list object (List.forall_mem_nil _)
    (fun _ _ hv hrest => List.forall_mem_cons.mpr ⟨hv, hrest⟩) (List.forall_mem_nil _)
    (fun _ _ hkv hrest => List.forall_mem_cons.mpr ⟨hkv, hrest⟩) (fun _ _ h => h)
    (fun _ _ h => h) v

/-- `true` for null. -/
def isNull : InputValue → Bool
  | null => true
  | _ => false

/-- `true` for a reference to a variable. -/
def isVariable : InputValue → Bool
  | var _ => true
  | _ => false

/-- A list whose items were not read from a source. -/
def ofList (items : List InputValue) : InputValue := list (items.map .unlocated)

/-- An object whose fields were not read from a source. -/
def ofFields (fields : List (Text × InputValue)) : InputValue :=
  object (fields.map fun (k, v) => (.unlocated k, .unlocated v))

/-- The first field under a key. -/
def field? (key : Text) : InputValue → Option InputValue
  | object fields => (fields.find? (·.1.value == key)).map (·.2.value)
  | _ => none

def scalar? : InputValue → Option Scalar
  | scalar s => some s
  | _ => none

/-- As a truth value. -/
def toBool? (v : InputValue) : Option Bool := v.scalar?.bind Scalar.toBool?

def toInt? (v : InputValue) : Option Int32 := v.scalar?.bind Scalar.toInt?

/-- As a float; an integer widens. -/
def toFloat? (v : InputValue) : Option Binary64 := v.scalar?.bind Scalar.toFloat?

/-- As text: that of a string, or the name of an enum value. -/
def toString? : InputValue → Option Text
  | enum name => some name
  | scalar s => s.toString?
  | _ => none

mutual

/-- Replaces variables by their values. A variable without one has no value at the top, is null in a
list, and drops its field in an object. -/
def substitute (vars : Variables) : InputValue → Option InputValue
  | var name => vars.get? name
  | list items => some (list (substituteItems vars items))
  | object fields => some (object (substituteFields vars fields))
  | null => some null
  | scalar s => some (scalar s)
  | enum name => some (enum name)

/-- Replaces variables in the items of a list. -/
def substituteItems (vars : Variables) : List (Located InputValue) → List (Located InputValue)
  | [] => []
  | ⟨v, span⟩ :: rest => ⟨(substitute vars v).getD null, span⟩ :: substituteItems vars rest

/-- Replaces variables in the fields of an object. -/
def substituteFields (vars : Variables) :
    List (Located Text × Located InputValue) → List (Located Text × Located InputValue)
  | [] => []
  | (key, ⟨v, span⟩) :: rest =>
    match substitute vars v with
    | some w => (key, ⟨w, span⟩) :: substituteFields vars rest
    | none => substituteFields vars rest

end

mutual

/-- The variables a value refers to, in order of appearance. -/
def references : InputValue → List Text
  | var name => [name]
  | list items => referencesOfItems items
  | object fields => referencesOfFields fields
  | null => []
  | scalar _ => []
  | enum _ => []

/-- The variables that the items of a list refer to. -/
def referencesOfItems : List (Located InputValue) → List Text
  | [] => []
  | ⟨v, _⟩ :: rest => v.references ++ referencesOfItems rest

/-- The variables that the fields of an object refer to. -/
def referencesOfFields : List (Located Text × Located InputValue) → List Text
  | [] => []
  | (_, ⟨v, _⟩) :: rest => v.references ++ referencesOfFields rest

end

mutual

/-- Equality, spans included. -/
protected def beq : InputValue → InputValue → Bool
  | null, null => true
  | scalar s, scalar t => s == t
  | enum a, enum b => a == b
  | var a, var b => a == b
  | list xs, list ys => beqItems xs ys
  | object xs, object ys => beqFields xs ys
  | _, _ => false

/-- Equality item by item, spans included. -/
def beqItems : List (Located InputValue) → List (Located InputValue) → Bool
  | [], [] => true
  | ⟨x, s⟩ :: xs, ⟨y, t⟩ :: ys => x.beq y && s == t && beqItems xs ys
  | _, _ => false

/-- Equality field by field, spans included. -/
def beqFields : List (Located Text × Located InputValue) →
    List (Located Text × Located InputValue) → Bool
  | [], [] => true
  | (k, ⟨x, s⟩) :: xs, (l, ⟨y, t⟩) :: ys => k == l && x.beq y && s == t && beqFields xs ys
  | _, _ => false

end

instance : BEq InputValue := ⟨InputValue.beq⟩

mutual

/-- Equality up to spans. Objects need as many fields and, for each field of the first, an equal one
in the second, in any order. -/
def sameAs : InputValue → InputValue → Bool
  | null, null => true
  | scalar s, scalar t => s == t
  | enum a, enum b => a == b
  | var a, var b => a == b
  | list xs, list ys => sameItems xs (ys.map (·.value))
  | object xs, object ys =>
    xs.length == ys.length && sameFields xs (ys.map fun (k, v) => (k.value, v.value))
  | _, _ => false

def sameItems : List (Located InputValue) → List InputValue → Bool
  | [], [] => true
  | ⟨x, _⟩ :: xs, y :: ys => x.sameAs y && sameItems xs ys
  | _, _ => false

/-- Each field has an equal one among those given. -/
def sameFields : List (Located Text × Located InputValue) → List (Text × InputValue) → Bool
  | [], _ => true
  | (k, ⟨x, _⟩) :: xs, ys => ys.any (fun (l, y) => k.value == l && x.sameAs y) && sameFields xs ys

end

mutual

def toText : InputValue → Text
  | null => lit "null"
  | scalar s => s.toText
  | enum name => name
  | var name => lit "$" ++ name
  | list items => lit "[" ++ Text.join (lit ", ") (itemTexts items) ++ lit "]"
  | object fields => lit "\x7b" ++ Text.join (lit ", ") (fieldTexts fields) ++ lit "\x7d"

def itemTexts : List (Located InputValue) → List Text
  | [] => []
  | ⟨v, _⟩ :: rest => v.toText :: itemTexts rest

def fieldTexts : List (Located Text × Located InputValue) → List Text
  | [] => []
  | (k, ⟨v, _⟩) :: rest => (k.value ++ lit ": " ++ v.toText) :: fieldTexts rest

end

end InputValue

end GraphQL
