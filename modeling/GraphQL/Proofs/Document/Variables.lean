import Mathlib.Data.List.Basic
import GraphQL.Document
import GraphQL.InputValue

/-! The variables of an operation. A variable has its supplied value, null included, or else the
first default that is declared for its name; and what is written has the values of its variables put
in for them. -/

namespace GraphQL

namespace VariableDef

/-- The default that a declaration gives to the variable of a name. -/
def defaultFor? (d : VariableDef) (name : Text) : Option InputValue :=
  if d.name.value = name then d.default.map (·.value) else none

/-- Variables with the default of a declaration, unless the variable has a value. -/
def supply (vars : Variables) (d : VariableDef) : Variables :=
  match d.default with
  | some v => Keyed.putNew vars d.name.value v.value
  | none => vars

theorem get?_supply (vars : Variables) (d : VariableDef) (name : Text) :
    Keyed.get? (supply vars d) name = (Keyed.get? vars name).or (d.defaultFor? name) := by
  unfold supply defaultFor?
  cases d.default with
  | none => simp
  | some v => simp [Keyed.get?_putNew, eq_comm]

theorem supply_of_isSome {vars : Variables} {d : VariableDef}
    (h : ∀ v, d.default = some v → (Keyed.get? vars d.name.value).isSome) :
    supply vars d = vars := by
  unfold supply
  cases hd : d.default with
  | none => rfl
  | some v => simp [Keyed.putNew, Keyed.contains, h v hd]

end VariableDef

namespace Operation

/-- The value of a variable: the one that is supplied, or the default of the first declaration of
its name that has one. -/
def variableValue? (op : Operation) (supplied : Variables) (name : Text) : Option InputValue :=
  (Keyed.get? supplied name).or (op.variableDefs.findSome? (·.defaultFor? name))

variable (op : Operation) (vars : Variables)

theorem withDefaults_eq : op.withDefaults vars = op.variableDefs.foldl VariableDef.supply vars :=
  rfl

theorem get?_foldl_supply (defs : List VariableDef) (name : Text) :
    Keyed.get? (defs.foldl VariableDef.supply vars) name =
      (Keyed.get? vars name).or (defs.findSome? (·.defaultFor? name)) := by
  induction defs generalizing vars with
  | nil => simp
  | cons d defs ih =>
    rw [List.foldl_cons, ih, VariableDef.get?_supply, Option.or_assoc, List.findSome?_cons]
    cases d.defaultFor? name <;> rfl

theorem get?_withDefaults (name : Text) :
    Keyed.get? (op.withDefaults vars) name = op.variableValue? vars name :=
  get?_foldl_supply vars op.variableDefs name

/-- Once defaults are in, no declaration has one to give. -/
theorem withDefaults_withDefaults :
    op.withDefaults (op.withDefaults vars) = op.withDefaults vars := by
  have hsupplied : ∀ d ∈ op.variableDefs,
      VariableDef.supply (op.withDefaults vars) d = op.withDefaults vars := by
    intro d hd
    refine VariableDef.supply_of_isSome fun v hv => ?_
    have hfirst : (op.variableDefs.findSome? (·.defaultFor? d.name.value)).isSome := by
      rw [List.findSome?_isSome_iff]
      exact ⟨d, hd, by simp [VariableDef.defaultFor?, hv]⟩
    rw [get?_withDefaults, variableValue?, Option.isSome_or, hfirst, Bool.or_true]
  rw [withDefaults_eq op (op.withDefaults vars)]
  exact List.foldlRecOn op.variableDefs _ (motive := (· = op.withDefaults vars)) rfl
    fun m hm d hd => by rw [hm, hsupplied d hd]

end Operation

namespace InputValue

variable {vars : Variables}

theorem substituteItems_eq (items : List (Located InputValue)) : substituteItems vars items =
    items.map fun v => ⟨(v.value.substitute vars).getD null, v.span⟩ := by
  induction items with
  | nil => rfl
  | cons v items ih => rw [List.map_cons, ← ih]; rfl

theorem substituteFields_eq (fields : List (Located Text × Located InputValue)) :
    substituteFields vars fields =
      fields.filterMap fun kv =>
        (kv.2.value.substitute vars).map fun w => (kv.1, ⟨w, kv.2.span⟩) := by
  induction fields with
  | nil => rfl
  | cons kv fields ih =>
    obtain ⟨key, v, span⟩ := kv
    rw [substituteFields, List.filterMap_cons, ← ih]
    cases v.substitute vars <;> rfl

/-- A way to put in values for variables. What a variable without a value comes to depends on where
it stands: by itself to nothing, in a list to null, and in an object its field is left out. -/
structure Replaces (value : Text → Option InputValue) (r : InputValue → Option InputValue) :
    Prop where
  var (name : Text) : r (.var name) = value name
  list (items : List (Located InputValue)) :
    r (.list items) = some (.list (items.map fun v => ⟨(r v.value).getD .null, v.span⟩))
  object (fields : List (Located Text × Located InputValue)) :
    r (.object fields) = some (.object
      (fields.filterMap fun kv => (r kv.2.value).map fun w => (kv.1, ⟨w, kv.2.span⟩)))
  null : r .null = some .null
  scalar (s : Scalar) : r (.scalar s) = some (.scalar s)
  enum (name : Text) : r (.enum name) = some (.enum name)

/-- There is one way to put in values. -/
theorem Replaces.unique {value : Text → Option InputValue}
    {r r' : InputValue → Option InputValue} (h : Replaces value r) (h' : Replaces value r') :
    r = r' := by
  funext v
  induction v with
  | null => rw [h.null, h'.null]
  | scalar s => rw [h.scalar, h'.scalar]
  | enum name => rw [h.enum, h'.enum]
  | var name => rw [h.var, h'.var]
  | list items ih =>
    rw [h.list, h'.list, List.map_congr_left fun v hv => by rw [ih v hv]]
  | object fields ih =>
    have hkeep : ∀ kv ∈ fields, r kv.2.value = r' kv.2.value := ih
    rw [h.object, h'.object, List.filterMap_congr fun kv hkv => by rw [hkeep kv hkv]]

theorem replaces_substitute {value : Text → Option InputValue}
    (h : ∀ name, Keyed.get? vars name = value name) : Replaces value (substitute vars) where
  var := h
  list items := by rw [substitute, substituteItems_eq]
  object fields := by rw [substitute, substituteFields_eq]
  null := rfl
  scalar _ := rfl
  enum _ := rfl

end InputValue

end GraphQL
