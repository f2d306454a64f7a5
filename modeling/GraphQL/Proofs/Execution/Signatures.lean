import GraphQL.Execution.LookAhead
import GraphQL.Proofs.Keyed
import GraphQL.Proofs.Validation.Checked

/-! What the selection of a field asks for: its name, its alias and the values of its arguments. The
type that declares the field has a say in the values only through its defaults, so types that agree
on those ask for the same. -/

namespace GraphQL

namespace FieldArguments

/-- The value of an argument that may take a default. -/
def settle (v : Option InputValue) (default : InputValue) : Option InputValue :=
  match v with
  | none => some default
  | some .null => some default
  | some v => some v

/-- The defaults that a list of arguments gives a name. -/
def defaultsOf (declared : List ArgumentDef) (name : Text) : List InputValue :=
  declared.filterMap fun arg => if arg.name = name then arg.default else none

theorem defaultsOf_cons (arg : ArgumentDef) (rest : List ArgumentDef) (name : Text) :
    defaultsOf (arg :: rest) name = defaultsOf [arg] name ++ defaultsOf rest name :=
  List.filterMap_append (l := [arg])

theorem get?_fill (values : FieldArguments) (arg : ArgumentDef) (name : Text) :
    Keyed.get? (values.fill arg) name =
      (defaultsOf [arg] name).foldl settle (Keyed.get? values name) := by
  by_cases hn : arg.name = name
  · subst hn
    cases hd : arg.default with
    | none => simp [fill, defaultsOf, hd]
    | some default =>
      cases hv : Keyed.get? values arg.name with
      | none => simp [fill, defaultsOf, hd, hv, settle, Keyed.get?_put]
      | some v => cases v <;> simp [fill, defaultsOf, hd, hv, settle, Keyed.get?_put]
  · have hother : ∀ default, Keyed.get? (Keyed.put values arg.name default) name =
        Keyed.get? values name := fun default => by rw [Keyed.get?_put, if_neg (Ne.symm hn)]
    unfold fill
    cases arg.default with
    | none => simp [defaultsOf, hn]
    | some default =>
      rcases Keyed.get? values arg.name with _ | v
      · simp [defaultsOf, hn, hother]
      · cases v <;> simp [defaultsOf, hn, hother]

/-- An argument has its supplied value or one of the defaults that are declared for its name. -/
theorem get?_withDefaults (supplied : FieldArguments) (declared : List ArgumentDef) (name : Text) :
    Keyed.get? (supplied.withDefaults declared) name =
      (defaultsOf declared name).foldl settle (Keyed.get? supplied name) := by
  induction declared generalizing supplied with
  | nil => rfl
  | cons arg rest ih =>
    rw [defaultsOf_cons, List.foldl_append, ← get?_fill]
    exact ih (supplied.fill arg)

/-- Declarations have a say in the arguments of a field only through their defaults. -/
theorem get?_ofField_congr {vars : Variables} {head : FieldHead} {a b : Option (List ArgumentDef)}
    (h : ∀ name, defaultsOf (a.getD []) name = defaultsOf (b.getD []) name) :
    Keyed.get? (ofField vars head a) = Keyed.get? (ofField vars head b) := by
  funext name
  unfold ofField
  rw [get?_withDefaults, get?_withDefaults, h name]

end FieldArguments

/-- The defaults that a type declares for an argument of a field. -/
def TypeDef.defaults (t : TypeDef) (field name : Text) : List InputValue :=
  FieldArguments.defaultsOf (((t.field? field).bind FieldDef.arguments).getD []) name

/-- Types that have a field in common declare the same defaults for its arguments. -/
def Schema.AgreesOnDefaults (s : Schema) : Prop :=
  ∀ a t b u, s.type? a = some t → s.type? b = some u → ∀ field,
    Rules.hasField t field = true → Rules.hasField u field = true →
      ∀ name, t.defaults field name = u.defaults field name

mutual

/-- The fields that are selected on the type itself, and not in a fragment with a condition. -/
def Selection.direct : Selection → List FieldHead
  | .field head _ => [head]
  | .spread _ => []
  | .inline ⟨none, _, _⟩ body => Selection.directOf body
  | .inline ⟨some _, _, _⟩ _ => []

def Selection.directOf : List Selection → List FieldHead
  | [] => []
  | x :: rest => x.direct ++ Selection.directOf rest

end

/-- A type has the fields that are selected on it directly. -/
def TypeDef.Declares (t : TypeDef) (selections : SelectionSet) : Prop :=
  ∀ head ∈ Selection.directOf selections, Rules.hasField t head.name.value = true

section Declares

variable {s : Schema} {fragments : List Fragment} {t : TypeDef}

mutual

theorem Selection.hasField_of_mem_direct : ∀ (x : Selection) (rest : SelectionSet),
    SelectionSet.Checked s fragments (some t) (x :: rest) →
      ∀ head ∈ x.direct, Rules.hasField t head.name.value = true
  | .field head body, rest, h, head', hmem => by
    obtain rfl : head' = head := by simpa [Selection.direct] using hmem
    exact h.hasField
  | .spread _, _, _, _, hmem => by simp [Selection.direct] at hmem
  | .inline ⟨none, _, _⟩ body, _, h, head, hmem =>
    SelectionSet.Checked.declares body h.inside head hmem
  | .inline ⟨some _, _, _⟩ _, _, _, _, hmem => by simp [Selection.direct] at hmem

/-- A type has what is selected on it as the rules ask. -/
theorem SelectionSet.Checked.declares : ∀ xs : SelectionSet,
    SelectionSet.Checked s fragments (some t) xs → t.Declares xs
  | [], _, _, hmem => by simp [Selection.directOf] at hmem
  | x :: rest, h, head, hmem => by
    rcases List.mem_append.mp hmem with hmem | hmem
    · exact x.hasField_of_mem_direct rest h head hmem
    · exact SelectionSet.Checked.declares rest h.tail head hmem

end

end Declares

/-- What is shown of the selection of a field: its name, its alias and the values of its
arguments. -/
structure Signature where
  name : Text
  aliasName : Option Text
  argument : Text → Option InputValue

def LookAhead.signature (l : LookAhead) : Signature :=
  ⟨l.name, l.aliasName, Keyed.get? l.arguments⟩

/-- The signature of a field as it is resolved on an object. -/
def FieldHead.signature (vars : Variables) (t : TypeDef) (head : FieldHead) : Signature :=
  ⟨head.name.value, head.aliasName.map (·.value),
    Keyed.get? (FieldArguments.ofField vars head
      ((t.field? head.name.value).bind FieldDef.arguments))⟩

/-- Types that agree on defaults give a field the same arguments. -/
theorem FieldHead.signature_congr {vars : Variables} {head : FieldHead} {t u : TypeDef}
    (h : ∀ name, t.defaults head.name.value name = u.defaults head.name.value name) :
    head.signature vars t = head.signature vars u := by
  simp only [FieldHead.signature, FieldArguments.get?_ofField_congr h]

theorem Schema.agreesOnDefaults_of_table {s : Schema} (table : Text → List ArgumentDef)
    (htypename : table (lit "__typename") = [])
    (h : ∀ f ∈ s.types.flatMap (·.2.ownFields), f.arguments.getD [] = table f.name) :
    s.AgreesOnDefaults := by
  have hall (a : Text) (t : TypeDef) (ht : s.type? a = some t) (field : Text)
      (hf : Rules.hasField t field = true) (name : Text) :
      t.defaults field name = FieldArguments.defaultsOf (table field) name := by
    unfold TypeDef.defaults
    cases hd : t.field? field with
    | none =>
      have hn : field = lit "__typename" := by
        cases t with
        | union u => simpa [Rules.hasField, hd] using hf
        | _ => simp [Rules.hasField, hd] at hf
      rw [hn, htypename]
      rfl
    | some f =>
      have hmem := List.mem_of_find?_eq_some hd
      obtain rfl : f.name = field := by simpa using List.find?_some hd
      rw [← h f (List.mem_flatMap.mpr ⟨_, Keyed.mem_of_get? ht, hmem⟩)]
      rfl
  intro a t b u ht hu field hft hfu name
  rw [hall a t ht field hft, hall b u hu field hfu]

end GraphQL
