import GraphQL.Proofs.Execution.Leaves

/-! Objects whose resolvers do not look into what they resolve. A reply depends on the object, the
field and the arguments, and says which objects are resolved and what is made of their values. -/

namespace GraphQL

/-- What is made of values without looking into them. -/
inductive Template where
  | null
  | scalar (s : Scalar)
  | list (items : List Template)
  | object (fields : List (Text × Template))
  | part (n : Nat)

namespace Template

mutual

def fill (parts : List Value) : Template → Value
  | null => .null
  | scalar s => .scalar s
  | list items => .list (fillItems parts items)
  | object fields => .object (fillFields parts fields [])
  | part n => parts[n]?.getD .null

def fillItems (parts : List Value) : List Template → List Value
  | [] => []
  | t :: rest => t.fill parts :: fillItems parts rest

def fillFields (parts : List Value) : List (Text × Template) → Keyed Value → Keyed Value
  | [], filled => filled
  | (key, t) :: rest, filled => fillFields parts rest (filled.put key (t.fill parts))

end

end Template

mutual

/-- An object: the type that declares its fields, the object type it tells, and its replies by field
and arguments. Arguments are looked up by name. -/
inductive Entity where
  | mk (typeName objectName : Text) (field : Text → (Text → Option InputValue) → Reply)

/-- What a resolver does: it resolves some objects and makes a value of theirs, or fails. -/
inductive Reply where
  | fill (t : Template)
  | fail (e : FieldError)
  | resolve (e : Option Entity) (next : Reply)
  | resolveInto (e : Entity) (next : Reply)
  | resolveList (items : List (Option Entity)) (next : Reply)

end

mutual

def Entity.toInstance : Entity → Instance
  | .mk typeName objectName field =>
    .mk typeName objectName (fun name arguments => (field name (Keyed.get? arguments)).toAnswer [])
      (fun _ => .none) .none

def Reply.toAnswer : Reply → (parts : List Value) → Answer
  | .fill t, parts => .value (t.fill parts)
  | .fail e, _ => .fail e
  | .resolve e next, parts => .resolve (toInstance? e) fun v => next.toAnswer (parts ++ [v])
  | .resolveInto e next, parts => .resolveInto e.toInstance fun v => next.toAnswer (parts ++ [v])
  | .resolveList items next, parts =>
    .resolveList (toInstances items) fun v => next.toAnswer (parts ++ [v])

def toInstance? : Option Entity → Option Instance
  | none => none
  | some e => some e.toInstance

def toInstances : List (Option Entity) → List (Option Instance)
  | [] => []
  | e :: rest => toInstance? e :: toInstances rest

end

def Reply.entities : Reply → List Entity
  | .fill _ => []
  | .fail _ => []
  | .resolve none _ => []
  | .resolve (some e) next => e :: next.entities
  | .resolveInto e next => e :: next.entities
  | .resolveList items next => items.filterMap id ++ next.entities

namespace Entity

def typeName : Entity → Text
  | mk typeName _ _ => typeName

def objectName : Entity → Text
  | mk _ objectName _ => objectName

def reply : Entity → Text → FieldArguments → Reply
  | mk _ _ field, name, arguments => field name (Keyed.get? arguments)

def handlers (e : Entity) : Process.Handlers :=
  ⟨e.objectName, fun t => ((e.reply t.name t.arguments).toAnswer []).process t.cursor,
    fun _ _ => none⟩

/-- What is planned for the object, if anything is selected and its type is known. -/
def plan? (e : Entity) (c : Cursor) : Option Plan :=
  match c.selections, c.scope.schema.type? e.typeName with
  | some selections, some type => some (.ofSelectionSet ⟨type, e.objectName⟩ c selections)
  | _, _ => none

def leaves (e : Entity) (c : Cursor) : List Leaf :=
  match e.plan? c with
  | some plan => plan.leaves
  | none => []

theorem process_of_plan?_none {e : Entity} {c : Cursor} (h : e.plan? c = none) :
    ∃ v, e.toInstance.process c = .finish (.error (.violation v)) := by
  obtain ⟨declared, objectName, field⟩ := e
  unfold plan? at h
  unfold toInstance Instance.process Substitute.process? Schema.requireType
  cases hs : c.selections with
  | none => exact ⟨_, rfl⟩
  | some selections =>
    cases ht : c.scope.schema.type? declared with
    | none => exact ⟨_, rfl⟩
    | some type => simp [hs, Entity.typeName, ht] at h

theorem plan?_of_type {e : Entity} {c : Cursor} {selections : SelectionSet} {type : TypeDef}
    (hs : c.selections = some selections) (ht : c.scope.schema.type? e.typeName = some type) :
    e.plan? c = some (.ofSelectionSet ⟨type, e.objectName⟩ c selections) := by
  rw [plan?, hs, ht]

theorem exists_of_plan? {e : Entity} {c : Cursor} {plan : Plan} (h : e.plan? c = some plan) :
    ∃ selections type, c.selections = some selections ∧
      c.scope.schema.type? e.typeName = some type ∧
      plan = .ofSelectionSet ⟨type, e.objectName⟩ c selections := by
  cases hs : c.selections with
  | none => simp [plan?, hs] at h
  | some selections =>
    cases ht : c.scope.schema.type? e.typeName with
    | none => simp [plan?, hs, ht] at h
    | some type =>
      rw [plan?_of_type hs ht] at h
      exact ⟨selections, type, rfl, rfl, (Option.some.inj h).symm⟩

theorem process_of_plan? {e : Entity} {c : Cursor} {plan : Plan} (h : e.plan? c = some plan) :
    e.toInstance.process c = plan.process e.handlers c.serial := by
  obtain ⟨selections, type, hs, ht, rfl⟩ := exists_of_plan? h
  obtain ⟨declared, objectName, field⟩ := e
  have ht : c.scope.schema.type? declared = some type := ht
  unfold toInstance Instance.process Substitute.process? Schema.requireType
  rw [hs, ht]
  rfl

theorem result_ne_failure (e : Entity) (c : Cursor) (error : FieldError) :
    (e.toInstance.process c).result ≠ .error (.failure error) := by
  cases h : e.plan? c with
  | none =>
    obtain ⟨v, hv⟩ := process_of_plan?_none h
    simp [hv, Process.result]
  | some plan =>
    rw [process_of_plan? h]
    simp only [Plan.process, Process.result]
    rcases Process.joined plan.stop? (Process.results (plan.processes e.handlers c.serial))
      with v | outcome <;> simp [Ending.ofOutcome]

theorem exists_result {e : Entity} {c : Cursor}
    (h : ∀ v, (e.toInstance.process c).result ≠ .error (.violation v)) :
    ∃ v, (e.toInstance.process c).result = .ok v := by
  rcases hr : (e.toInstance.process c).result with (error | v) | v
  · exact absurd hr (e.result_ne_failure c error)
  · exact absurd hr (h v)
  · exact ⟨v, rfl⟩

end Entity

end GraphQL
