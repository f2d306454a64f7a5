import GraphQL.Execution.Arguments
import GraphQL.Proofs.Document.Exact
import GraphQL.Proofs.Keyed

/-! Values that refer to no variable. Defaults of variables are such values, and so is what comes of
an argument when such values are put in for variables and for what is left out. -/

namespace GraphQL

namespace InputValue

/-- A value that refers to no variable, at any depth. -/
def IsConstant (v : InputValue) : Prop := v.references = []

/-- Values under names, none of which refers to a variable. -/
def AreConstant (values : Keyed InputValue) : Prop := ∀ entry ∈ values, entry.2.IsConstant

section Substitution

variable {vars : Variables}

mutual

/-- No variable is left where those that have a value have a constant one. -/
theorem isConstant_substitute (h : AreConstant vars) : ∀ (v w : InputValue),
    v.substitute vars = some w → w.IsConstant
  | var name, w, hw => h (name, w) (Keyed.mem_of_get? hw)
  | list items, w, hw => by
    have hitems := references_substituteItems h items
    rw [substitute, Option.some.injEq] at hw
    subst hw
    exact hitems
  | object fields, w, hw => by
    have hfields := references_substituteFields h fields
    rw [substitute, Option.some.injEq] at hw
    subst hw
    exact hfields
  | null, w, hw => by
    rw [substitute, Option.some.injEq] at hw
    subst hw
    rfl
  | scalar s, w, hw => by
    rw [substitute, Option.some.injEq] at hw
    subst hw
    rfl
  | enum name, w, hw => by
    rw [substitute, Option.some.injEq] at hw
    subst hw
    rfl

theorem references_substituteItems (h : AreConstant vars) :
    ∀ items, referencesOfItems (substituteItems vars items) = []
  | [] => rfl
  | ⟨v, span⟩ :: rest => by
    have hrest := references_substituteItems h rest
    have hfirst := isConstant_substitute h v
    unfold substituteItems referencesOfItems
    cases hv : v.substitute vars with
    | none => exact hrest
    | some w =>
      have hw : w.references = [] := hfirst w hv
      rw [Option.getD_some, hw, hrest]
      rfl

theorem references_substituteFields (h : AreConstant vars) :
    ∀ fields, referencesOfFields (substituteFields vars fields) = []
  | [] => rfl
  | (key, ⟨v, span⟩) :: rest => by
    have hrest := references_substituteFields h rest
    have hfirst := isConstant_substitute h v
    unfold substituteFields
    cases hv : v.substitute vars with
    | none => exact hrest
    | some w =>
      have hw : w.references = [] := hfirst w hv
      dsimp only
      rw [referencesOfFields, hw, hrest]
      rfl

end

end Substitution

section Literals

variable {schema : Schema}

mutual

/-- A literal that is written where a constant has to stand refers to no variable. -/
theorem isConstant_of_isWellFormed : ∀ (v : InputValue) (expected : Option TypeDef),
    v.isWellFormed schema true expected = true → v.IsConstant
  | null, _, _ => rfl
  | scalar _, _, _ => rfl
  | enum _, _, _ => rfl
  | var _, _, h => nomatch h
  | list items, expected, h => references_of_areWellFormed items expected h
  | object fields, expected, h => by
    have hfields := (Bool.and_eq_true_iff.mp h).2
    exact references_of_entriesWellFormed fields _ hfields

theorem references_of_areWellFormed : ∀ (items : List (Located InputValue))
    (expected : Option TypeDef), areWellFormed schema true expected items = true →
      referencesOfItems items = []
  | [], _, _ => rfl
  | ⟨v, span⟩ :: rest, expected, h => by
    obtain ⟨hv, hrest⟩ := Bool.and_eq_true_iff.mp h
    have hfirst : v.references = [] := isConstant_of_isWellFormed v expected hv
    rw [referencesOfItems, hfirst, references_of_areWellFormed rest expected hrest]
    rfl

theorem references_of_entriesWellFormed : ∀ (fields : List (Located Text × Located InputValue))
    (expected : Text → Option TypeDef), entriesWellFormed schema true expected fields = true →
      referencesOfFields fields = []
  | [], _, _ => rfl
  | (key, ⟨v, span⟩) :: rest, expected, h => by
    obtain ⟨hv, hrest⟩ := Bool.and_eq_true_iff.mp h
    have hfirst : v.references = [] := isConstant_of_isWellFormed v (expected key.value) hv
    rw [referencesOfFields, hfirst, references_of_entriesWellFormed rest expected hrest]
    rfl

end

end Literals

theorem areConstant_nil : AreConstant [] := by
  intro entry h
  cases h

theorem AreConstant.put {values : Keyed InputValue} {v : InputValue} (h : AreConstant values)
    (hv : v.IsConstant) (name : Text) : AreConstant (values.put name v) := by
  intro entry hentry
  rcases Keyed.mem_of_mem_put hentry with hentry | rfl
  · exact h entry hentry
  · exact hv

theorem AreConstant.putNew {values : Keyed InputValue} {v : InputValue} (h : AreConstant values)
    (hv : v.IsConstant) (name : Text) : AreConstant (values.putNew name v) := by
  intro entry hentry
  rcases Keyed.mem_of_mem_putNew hentry with hentry | rfl
  · exact h entry hentry
  · exact hv

end InputValue

open InputValue

/-- Arguments whose defaults refer to no variable. -/
def ArgumentDef.ConstantDefaults (args : List ArgumentDef) : Prop :=
  ∀ arg ∈ args, ∀ v, arg.default = some v → v.IsConstant

def FieldDef.ConstantDefaults (f : FieldDef) : Prop :=
  ArgumentDef.ConstantDefaults (f.arguments.getD [])

def TypeDef.ConstantDefaults (t : TypeDef) : Prop :=
  ∀ name f, t.field? name = some f → f.ConstantDefaults

/-- A schema in which no default of an argument refers to a variable. -/
def Schema.ConstantDefaults (s : Schema) : Prop :=
  ∀ name t, s.type? name = some t → t.ConstantDefaults

/-- It is enough to look at the fields that the types list. -/
theorem Schema.constantDefaults_of_types {s : Schema}
    (h : ∀ entry ∈ s.types, ∀ f ∈ entry.2.ownFields, f.ConstantDefaults) :
    s.ConstantDefaults := by
  intro name t ht field f hf
  exact h (name, t) (Keyed.mem_of_get? ht) f (List.mem_of_find?_eq_some hf)

namespace FieldArguments

variable {vars : Variables}

theorem areConstant_ofWritten (h : AreConstant vars) (args : Option (Located Arguments)) :
    AreConstant (ofWritten vars args) := by
  unfold ofWritten
  cases args with
  | none => exact areConstant_nil
  | some args =>
    apply List.foldlRecOn args.value _ areConstant_nil
    intro values hvalues entry _
    obtain ⟨name, v⟩ := entry
    apply hvalues.put
    cases hv : v.value.substitute vars with
    | none => rfl
    | some w => exact isConstant_substitute h v.value w hv

theorem areConstant_fill {values : FieldArguments} (h : AreConstant values) {arg : ArgumentDef}
    (hdefault : ∀ v, arg.default = some v → v.IsConstant) : AreConstant (values.fill arg) := by
  unfold fill
  cases hd : arg.default with
  | none => exact h
  | some default =>
    have hput : AreConstant (Keyed.put values arg.name default) := h.put (hdefault default hd) _
    cases Keyed.get? values arg.name with
    | none => exact hput
    | some v =>
      cases v with
      | null => exact hput
      | _ => exact h

theorem areConstant_withDefaults {supplied : FieldArguments} (h : AreConstant supplied)
    {declared : List ArgumentDef} (hdeclared : ArgumentDef.ConstantDefaults declared) :
    AreConstant (supplied.withDefaults declared) := by
  apply List.foldlRecOn declared _ h
  intro values hvalues arg harg
  exact areConstant_fill hvalues (hdeclared arg harg)

/-- The arguments that a resolver is given refer to no variable. -/
theorem areConstant_ofField (h : AreConstant vars) (head : FieldHead)
    {declared : Option (List ArgumentDef)}
    (hdeclared : ArgumentDef.ConstantDefaults (declared.getD [])) :
    AreConstant (ofField vars head declared) :=
  areConstant_withDefaults (areConstant_ofWritten h head.arguments) hdeclared

end FieldArguments

/-- The operations of a document that was read declare their variables as they have to. -/
theorem Document.isWellFormed_of_ofText {schema : Schema} {t : Text} {doc : Document}
    (h : ofText schema t = .ok doc) : doc.isWellFormed schema = true := by
  obtain ⟨tokens, s', htokens, hdoc⟩ := ofText_eq_ok_iff.mp h
  have hfuel : tokens.values.length < tokens.pending.length + 1 := by
    rw [Parser.length_values]
    omega
  obtain ⟨-, hitems⟩ :=
    Parser.definitionsUpTo_sound _ (Tokens.ofText_not_endOfFile htokens) hfuel hdoc
  exact (Parser.items_isDefinition_iff.mp hitems).1

/-- The defaults that an operation declares for its variables are constant. -/
theorem Operation.isConstant_of_default {schema : Schema} {op : Operation}
    (h : op.isWellFormed schema = true) {d : VariableDef} (hd : d ∈ op.variableDefs)
    {v : Located InputValue} (hv : d.default = some v) : v.value.IsConstant := by
  unfold variableDefs at hd
  unfold isWellFormed at h
  cases hdefs : op.declaredVars with
  | none =>
    rw [hdefs] at hd
    cases hd
  | some defs =>
    rw [hdefs] at h hd
    have hall := (Bool.and_eq_true_iff.mp (Bool.and_eq_true_iff.mp h).1).2
    have hwf : d.isWellFormed schema = true := List.all_eq_true.mp hall d hd
    have hdefault := (Bool.and_eq_true_iff.mp (Bool.and_eq_true_iff.mp hwf).2).1
    rw [hv] at hdefault
    exact isConstant_of_isWellFormed v.value _ hdefault

/-- The values of variables in an operation of a document that was read. -/
theorem Operation.areConstant_withDefaults {schema : Schema} {t : Text} {doc : Document}
    (hdoc : Document.ofText schema t = .ok doc) {op : Operation} (hop : op ∈ doc.operations)
    {vars : Variables} (hvars : AreConstant vars) : AreConstant (op.withDefaults vars) := by
  have hwf : op.isWellFormed schema = true := by
    obtain ⟨d, hd, hdop⟩ := List.mem_filterMap.mp hop
    have hdef := List.all_eq_true.mp (Document.isWellFormed_of_ofText hdoc) d hd
    cases d with
    | operation op' =>
      obtain rfl : op' = op := Option.some.inj hdop
      exact hdef
    | fragment f => cases hdop
  apply List.foldlRecOn op.variableDefs _ hvars
  intro values hvalues d hd
  cases hv : d.default with
  | none => exact hvalues
  | some v => exact hvalues.putNew (isConstant_of_default hwf hd hv) _

end GraphQL
