import GraphQL.Proofs.Document.Constants
import GraphQL.Proofs.Document.Variables
import GraphQL.Proofs.Value.Sameness

/-! What becomes of a value when variables have their values put in. It depends on nothing but the
variables that the value refers to; and there is nothing left to put in afterwards, if the values of
variables are constants. -/

namespace GraphQL

namespace InputValue

/-! ### What a value refers to -/

theorem references_list (items : List (Located InputValue)) :
    (list items).references = items.flatMap (·.value.references) := by
  rw [references]
  induction items with
  | nil => rfl
  | cons v items ih => rw [referencesOfItems, List.flatMap_cons, ih]

theorem references_object (fields : List (Located Text × Located InputValue)) :
    (object fields).references = fields.flatMap (·.2.value.references) := by
  rw [references]
  induction fields with
  | nil => rfl
  | cons kv fields ih => rw [referencesOfFields, List.flatMap_cons, ih]

/-- A name that an item of a list refers to is one that the list refers to. -/
theorem mem_references_list {items : List (Located InputValue)} {v : Located InputValue}
    (hv : v ∈ items) {name : Text} (h : name ∈ v.value.references) :
    name ∈ (list items).references := by
  rw [references_list]
  exact List.mem_flatMap.mpr ⟨v, hv, h⟩

theorem mem_references_object {fields : List (Located Text × Located InputValue)}
    {kv : Located Text × Located InputValue} (hkv : kv ∈ fields) {name : Text}
    (h : name ∈ kv.2.value.references) : name ∈ (object fields).references := by
  rw [references_object]
  exact List.mem_flatMap.mpr ⟨kv, hkv, h⟩

/-! ### What is put in -/

variable {vars vars' : Variables} {v : InputValue}

theorem substitute_list (vars : Variables) (items : List (Located InputValue)) :
    (list items).substitute vars =
      some (list (items.map fun v => ⟨(v.value.substitute vars).getD null, v.span⟩)) := by
  rw [substitute, substituteItems_eq]

theorem substitute_object (vars : Variables) (fields : List (Located Text × Located InputValue)) :
    (object fields).substitute vars = some (object (fields.filterMap fun kv =>
      (kv.2.value.substitute vars).map fun w => (kv.1, ⟨w, kv.2.span⟩))) := by
  rw [substitute, substituteFields_eq]

/-- Two ways to give variables values come to the same where they agree on what is referred to. -/
theorem substitute_congr (h : ∀ name ∈ v.references, vars.get? name = vars'.get? name) :
    v.substitute vars = v.substitute vars' := by
  induction v with
  | null => rfl
  | scalar s => rfl
  | enum name => rfl
  | var name => exact h name (List.mem_singleton.mpr rfl)
  | list items ih =>
    have hitems : ∀ v ∈ items, v.value.substitute vars = v.value.substitute vars' :=
      fun v hv => ih v hv fun name hname => h name (mem_references_list hv hname)
    rw [substitute_list, substitute_list,
      List.map_congr_left fun v hv => by rw [hitems v hv]]
  | object fields ih =>
    have hfields : ∀ kv ∈ fields, kv.2.value.substitute vars = kv.2.value.substitute vars' :=
      fun kv hkv => ih kv hkv fun name hname => h name (mem_references_object hkv hname)
    rw [substitute_object, substitute_object,
      List.filterMap_congr fun kv hkv => by rw [hfields kv hkv]]

theorem beqItems_map {f g : Located InputValue → InputValue} {items : List (Located InputValue)}
    (h : ∀ v ∈ items, (f v == g v) = true) :
    beqItems (items.map fun v => ⟨f v, v.span⟩) (items.map fun v => ⟨g v, v.span⟩) = true := by
  induction items with
  | nil => rfl
  | cons v items ih =>
    obtain ⟨hv, hrest⟩ := List.forall_mem_cons.mp h
    have hfirst : (f v).beq (g v) = true := hv
    rw [List.map_cons, List.map_cons, beqItems, hfirst, ih hrest]
    simp

theorem beqFields_filterMap {f g : Located Text × Located InputValue → Option InputValue}
    {fields : List (Located Text × Located InputValue)}
    (h : ∀ kv ∈ fields, (f kv == g kv) = true) :
    beqFields (fields.filterMap fun kv => (f kv).map fun w => (kv.1, ⟨w, kv.2.span⟩))
      (fields.filterMap fun kv => (g kv).map fun w => (kv.1, ⟨w, kv.2.span⟩)) = true := by
  induction fields with
  | nil => rfl
  | cons kv fields ih =>
    obtain ⟨hkv, hrest⟩ := List.forall_mem_cons.mp h
    rw [List.filterMap_cons, List.filterMap_cons]
    cases hf : f kv with
    | none =>
      have hg : g kv = none := by
        cases hg : g kv with
        | none => rfl
        | some w => simp [hf, hg] at hkv
      rw [hg]
      exact ih hrest
    | some x =>
      cases hg : g kv with
      | none => simp [hf, hg] at hkv
      | some y =>
        have hxy : (x == y) = true := by simpa [hf, hg] using hkv
        have hxy : x.beq y = true := hxy
        simp only [Option.map_some, beqFields, hxy, ih hrest, beq_self_eq_true, Bool.and_self]

/-- The same with values that are equal as numbers are, where the value itself has no NaN. -/
theorem substitute_beq (hv : v.LacksNaN)
    (h : ∀ name ∈ v.references, (vars.get? name == vars'.get? name) = true) :
    (v.substitute vars == v.substitute vars') = true := by
  induction hv with
  | null => rfl
  | scalar hs => exact Scalar.beq_self_of_not_nan hs
  | enum name => exact beq_self_eq_true name
  | var name => exact h name (List.mem_singleton.mpr rfl)
  | @list items _ ih =>
    have hitems : ∀ v ∈ items, ((v.value.substitute vars).getD null ==
        (v.value.substitute vars').getD null) = true := by
      intro v hv
      have hv := ih v hv fun name hname => h name (mem_references_list hv hname)
      cases hw : v.value.substitute vars <;> cases hw' : v.value.substitute vars' <;>
        simp_all
      rfl
    rw [substitute_list, substitute_list]
    exact beqItems_map hitems
  | @object fields _ ih =>
    have hfields : ∀ kv ∈ fields,
        (kv.2.value.substitute vars == kv.2.value.substitute vars') = true :=
      fun kv hkv => ih kv hkv fun name hname => h name (mem_references_object hkv hname)
    rw [substitute_object, substitute_object]
    exact beqFields_filterMap hfields

/-- Only a variable by itself can come to nothing. -/
theorem substitute_eq_none_iff :
    v.substitute vars = none ↔ ∃ name, v = var name ∧ vars.get? name = none := by
  cases v <;> simp [substitute]

/-- There is nothing to put in for a constant. -/
theorem IsConstant.substitute_eq (h : v.IsConstant) (vars : Variables) :
    v.substitute vars = some v := by
  unfold IsConstant at h
  induction v with
  | null => rfl
  | scalar s => rfl
  | enum name => rfl
  | var name => cases h
  | list items ih =>
    rw [references_list, List.flatMap_eq_nil_iff] at h
    have hitems : ∀ v ∈ items, ⟨(v.value.substitute vars).getD null, v.span⟩ = v :=
      fun v hv => by rw [ih v hv (h v hv), Option.getD_some]
    rw [substitute_list, List.map_congr_left hitems, List.map_id']
  | object fields ih =>
    rw [references_object, List.flatMap_eq_nil_iff] at h
    have hfields : ∀ kv ∈ fields, ((kv.2.value.substitute vars).map fun w =>
        (kv.1, (⟨w, kv.2.span⟩ : Located InputValue))) = some kv :=
      fun kv hkv => by rw [ih kv hkv (h kv hkv), Option.map_some]
    rw [substitute_object, List.filterMap_congr hfields, List.filterMap_some]

/-- What is put in for the variables of a value. It is the same, spans included, whatever else has a
value, and equal where only equal values are put in; there is nothing just for a variable that has
no value; a constant stays as it is; and with constants put in a constant comes out, so that there
is nothing more to put in. -/
theorem substitute_determined (v : InputValue) (vars : Variables) :
    (∀ vars' : Variables, (∀ name ∈ v.references, vars.get? name = vars'.get? name) →
      v.substitute vars = v.substitute vars') ∧
    (v.LacksNaN → ∀ vars' : Variables,
      (∀ name ∈ v.references, (vars.get? name == vars'.get? name) = true) →
      (v.substitute vars == v.substitute vars') = true) ∧
    (v.substitute vars = none ↔ ∃ name, v = .var name ∧ vars.get? name = none) ∧
    (v.IsConstant → v.substitute vars = some v) ∧
    (AreConstant vars → ∀ w, v.substitute vars = some w →
      w.IsConstant ∧ ∀ vars' : Variables, w.substitute vars' = some w) := by
  refine ⟨fun vars' => substitute_congr, fun hv vars' => substitute_beq hv,
    substitute_eq_none_iff, fun hv => hv.substitute_eq vars, fun hvars w hw => ?_⟩
  have hconstant : w.IsConstant := isConstant_substitute hvars v w hw
  exact ⟨hconstant, hconstant.substitute_eq⟩

end InputValue

namespace Postcard

open InputValue

/-- `[$from, {to: $to, note: $note}]` -/
def written : InputValue :=
  .ofList [.var (lit "from"), .ofFields [(lit "to", .var (lit "to")), (lit "note", .var (lit "note"))]]

/-- Values for two of the three variables. -/
def sent : Variables := [(lit "to", .enum (lit "HOME")), (lit "from", .scalar (.int 1))]

/-- The same in another order, and one more that nothing refers to. -/
def resent : Variables := (lit "stamp", .null) :: sent.reverse

/-- `[1, {to: HOME}]` -/
def filled : InputValue :=
  .ofList [.scalar (.int 1), .ofFields [(lit "to", .enum (lit "HOME"))]]

theorem mem_references_written {name : Text} : name ∈ written.references ↔
    name = lit "from" ∨ name = lit "to" ∨ name = lit "note" := by
  simp [written, InputValue.ofList, ofFields, references, referencesOfItems, referencesOfFields,
    Located.unlocated]

theorem get?_resent : ∀ name ∈ written.references, sent.get? name = resent.get? name := by
  intro name hname
  rcases mem_references_written.mp hname with rfl | rfl | rfl <;> rfl

theorem beq_get?_resent :
    ∀ name ∈ written.references, (sent.get? name == resent.get? name) = true := by
  intro name hname
  rcases mem_references_written.mp hname with rfl | rfl | rfl <;> rfl

theorem areConstant_sent : AreConstant sent := by
  simp [AreConstant, sent, IsConstant, references]

theorem lacksNaN_written : written.LacksNaN := by
  have hfields : (InputValue.ofFields
      [(lit "to", .var (lit "to")), (lit "note", .var (lit "note"))]).LacksNaN :=
    .object (by simp [Located.unlocated, LacksNaN.var])
  exact .list (by simp [Located.unlocated, LacksNaN.var, hfields])

/-- The variable without a value takes its entry with it, and the one that nothing refers to makes
no difference. -/
theorem substitute_determined_written : written.substitute sent = some filled ∧
    written.substitute resent = some filled ∧
    (written.substitute sent == written.substitute resent) = true ∧
    filled.substitute sent = some filled ∧ ∀ vars, filled.substitute vars = some filled := by
  have hsent : written.substitute sent = some filled := rfl
  obtain ⟨hsame, hequal, -, -, hconstant⟩ := substitute_determined written sent
  obtain ⟨-, -, -, hfilled, -⟩ := substitute_determined filled sent
  exact ⟨hsent, (hsame resent get?_resent).symm.trans hsent,
    hequal lacksNaN_written resent beq_get?_resent, hfilled rfl,
    (hconstant areConstant_sent filled hsent).2⟩

end Postcard

end GraphQL
