import GraphQL.Execution.Subscription
import GraphQL.Proofs.Errs

/-! Computations seen from the state they start in: what each way of putting them together comes to,
and how a predicate on what ends them early is carried through. -/

namespace GraphQL

variable {ε S α β σ : Type}

/-- Running two computations in turn: the second starts where the first one ended. -/
theorem run_bind (x : ExceptT ε (StateM S) α) (f : α → ExceptT ε (StateM S) β) (s : S) :
    (x >>= f).run.run s = match x.run.run s with
      | (.ok a, t) => (f a).run.run t
      | (.error e, t) => (.error e, t) := by
  simp only [bind, ExceptT.bind, ExceptT.run, StateT.run, ExceptT.mk, StateT.bind,
    ExceptT.bindCont]
  rcases x s with ⟨_ | _, _⟩ <;> rfl

/-- Two computations in turn that give a result: both of them do. -/
theorem exists_of_run_bind {x : ExceptT ε (StateM S) α} {f : α → ExceptT ε (StateM S) β}
    {s t : S} {b : β} (h : (x >>= f).run.run s = (.ok b, t)) :
    ∃ a u, x.run.run s = (.ok a, u) ∧ (f a).run.run u = (.ok b, t) := by
  rw [run_bind] at h
  rcases hx : x.run.run s with ⟨e | a, u⟩
  · rw [hx] at h
    cases (Prod.mk.inj h).1
  · rw [hx] at h
    exact ⟨a, u, rfl, h⟩

theorem Run.run_toResolve (x : Run σ α) (s : Effects σ) :
    x.toResolve.run.run s = ((x.run.run s).1.mapError .violation, (x.run.run s).2) := rfl

theorem Run.run_of_toResolve {x : Run σ Value} {s u : Effects σ} {v : Value}
    (h : x.toResolve.run.run s = (.ok v, u)) : x.run.run s = (.ok v, u) := by
  rw [Run.run_toResolve] at h
  rcases hr : x.run.run s with ⟨r | v', u'⟩
  · rw [hr] at h
    cases h
  · rw [hr] at h
    cases h
    rfl

/-- A failure is recorded and gives nothing; a broken invariant ends the computation. -/
theorem Resolve.run_captured (x : Resolve σ α) (c : Cursor) (location : Position) (s : Effects σ) :
    (x.captured c location).run.run s = match x.run.run s with
      | (.ok a, t) => (.ok (some a), t)
      | (.error (.failure e), t) => (.ok none, t.record c location e)
      | (.error (.violation v), t) => (.error v, t) := by
  simp only [Resolve.captured, ExceptT.run, StateT.run, ExceptT.mk, bind, StateT.bind]
  rcases x s with ⟨(_ | _) | _, _⟩ <;> rfl

/-- Whatever ends a computation early satisfies a predicate. -/
def Raises (P : ε → Prop) (x : ExceptT ε (StateM S) α) : Prop :=
  ∀ s e, (x.run.run s).1 = .error e → P e

/-- Why a resolver ends early, seen from the request: a failure ends only its field. -/
def Raise.Breaks (P : Violation → Prop) : Raise → Prop
  | .failure _ => True
  | .violation v => P v

namespace Raises

variable {P : ε → Prop}

theorem pure (a : α) : Raises P (pure a : ExceptT ε (StateM S) α) := by
  intro s e h
  cases h

theorem throw {e : ε} (h : P e) : Raises P (throw e : ExceptT ε (StateM S) α) := by
  intro s e' he
  cases he
  exact h

theorem modify (f : S → S) : Raises P (modify f : ExceptT ε (StateM S) Unit) := by
  intro s e h
  cases h

theorem get : Raises P (get : ExceptT ε (StateM S) S) := by
  intro s e h
  cases h

theorem bind {x : ExceptT ε (StateM S) α} {f : α → ExceptT ε (StateM S) β}
    (hx : Raises P x) (hf : ∀ a, Raises P (f a)) : Raises P (x >>= f) := by
  intro s e h
  rw [run_bind] at h
  have hx := hx s
  rcases hr : x.run.run s with ⟨e' | a, t⟩
  · exact hx e (by simpa [hr] using h)
  · exact hf a t e (by simpa [hr] using h)

theorem ofExcept_bind {x : Except ε α} (h : Errs P x) {f : α → ExceptT ε (StateM S) β}
    (hf : ∀ a, x = .ok a → Raises P (f a)) :
    Raises P ((ExceptT.mk (Pure.pure x) : ExceptT ε (StateM S) α) >>= f) := by
  cases x with
  | error e =>
    intro _ e' he
    cases he
    exact h e rfl
  | ok a => exact hf a rfl

theorem mapM {f : α → ExceptT ε (StateM S) β} {l : List α} (h : ∀ a ∈ l, Raises P (f a)) :
    Raises P (l.mapM f) := by
  induction l with
  | nil => exact .pure _
  | cons a rest ih =>
    rw [List.mapM_cons]
    refine .bind (h a (by simp)) fun b => .bind (ih fun c hc => ?_) fun bs => .pure _
    exact h c (List.mem_cons_of_mem _ hc)

variable {P : Violation → Prop}

theorem toResolve {x : Run σ α} (h : Raises P x) : Raises (Raise.Breaks P) x.toResolve := by
  intro s e he
  rw [Run.run_toResolve] at he
  have hx := h s
  rcases hr : x.run.run s with ⟨v | a, t⟩
  · rw [hr] at he
    cases he
    exact hx v (by rw [hr])
  · rw [hr] at he
    cases he

theorem captured {x : Resolve σ α} (h : Raises (Raise.Breaks P) x) (c : Cursor)
    (location : Position) : Raises P (x.captured c location) := by
  intro s v hv
  rw [Resolve.run_captured] at hv
  have hx := h s
  rcases hr : x.run.run s with ⟨(e | v') | a, t⟩
  · rw [hr] at hv
    cases hv
  · rw [hr] at hv
    cases hv
    exact hx (.violation v) (by rw [hr])
  · rw [hr] at hv
    cases hv

theorem perform {x : Run σ α} (hx : Raises P x)
    {f : Except Violation α × List ExecutionError → Engine σ β}
    (hf : ∀ result errors, Errs P result → Raises P (f (result, errors))) :
    Raises P (Engine.perform x >>= f) := by
  intro s v hv
  rw [run_bind] at hv
  exact hf _ _ (hx _) _ v hv

end Raises

theorem Engine.run_say (messages : List Console.Message) (session : Session σ) :
    (Engine.say messages).run.run session =
      (.ok (), ⟨session.messages ++ messages, session.world⟩) := rfl

/-- A computation is run with no errors recorded before, and tells those that it records. -/
theorem Engine.run_perform (x : Run σ α) (session : Session σ) :
    (Engine.perform x).run.run session =
      (.ok ((x.run.run ⟨[], session.world⟩).1, (x.run.run ⟨[], session.world⟩).2.errors),
        ⟨session.messages ++
            (x.run.run ⟨[], session.world⟩).2.errors.map ExecutionError.notice,
          (x.run.run ⟨[], session.world⟩).2.world⟩) := rfl

@[simp] theorem Operation.scope_cursor (op : Operation) (scope : Scope) (type : TypeDef) :
    (op.cursor scope type).scope = scope := by
  unfold Operation.cursor
  dsimp only
  split <;> rfl

@[simp] theorem Operation.selections_cursor (op : Operation) (scope : Scope) (type : TypeDef) :
    (op.cursor scope type).selections = some op.selections := by
  unfold Operation.cursor
  dsimp only
  split <;> rfl

@[simp] theorem Operation.path_cursor (op : Operation) (scope : Scope) (type : TypeDef) :
    (op.cursor scope type).path = .root op.span.start := by
  unfold Operation.cursor
  dsimp only
  split <;> rfl

/-- A type with the value that an operation starts from. -/
theorem Operation.of_requireRoot {op : Operation} {own type : TypeDef} {root? : Option α} {root : α}
    (h : (do return (own, ← op.requireRoot root?)) = (.ok (type, root) : Except Violation _)) :
    own = type ∧ root? = some root := by
  cases root? with
  | none => cases h
  | some found =>
    obtain ⟨htype, hroot⟩ := Prod.mk.inj (Except.ok.inj h)
    exact ⟨htype, congrArg some hroot⟩

/-- What an operation starts from is the root of its kind. -/
theorem Service.root_cases {service : Service σ} {op : Operation} {type : TypeDef} {node : Node σ}
    (h : service.root op = .ok (type, node)) : service.schema.root? op.type = some type ∧
      ((op.type = .query ∧ service.query = some node) ∨
        op.type = .mutation ∧ service.mutation = some node) := by
  unfold root at h
  cases hop : op.type with
  | query =>
    rw [hop] at h
    unfold Schema.requireType at h
    cases htype : service.schema.type? service.schema.queryName with
    | none => simp [htype, bind, Except.bind] at h
    | some own =>
      rw [htype] at h
      obtain ⟨rfl, hnode⟩ := Operation.of_requireRoot h
      exact ⟨htype, .inl ⟨rfl, hnode⟩⟩
  | mutation =>
    rw [hop] at h
    cases htype : service.schema.root? .mutation with
    | none => simp [htype] at h
    | some own =>
      simp only [htype] at h
      obtain ⟨rfl, hnode⟩ := Operation.of_requireRoot h
      exact ⟨rfl, .inr ⟨rfl, hnode⟩⟩
  | subscription =>
    rw [hop] at h
    cases h

theorem Service.subscriptionRoot_cases {service : Service σ} {op : Operation} {type : TypeDef}
    {root : SubscriptionRoot σ} (h : service.subscriptionRoot op = .ok (type, root)) :
    op.type = .subscription ∧ service.schema.root? .subscription = some type ∧
      service.subscription = some root := by
  unfold subscriptionRoot at h
  by_cases hop : op.type = .subscription
  · cases htype : service.schema.root? .subscription with
    | none => simp [hop, htype] at h
    | some own =>
      simp only [hop, htype, if_true] at h
      obtain ⟨rfl, hroot⟩ := Operation.of_requireRoot h
      exact ⟨hop, rfl, hroot⟩
  · simp [hop] at h

/-- An operation is executed by resolving what it selects on its root. -/
theorem Service.run_executeOperation {service : Service σ} {op : Operation} {type : TypeDef}
    {node : Node σ} (hroot : service.root op = .ok (type, node)) (doc : Document)
    (settings : Settings) (session : Session σ) :
    ((service.executeOperation doc op settings).run.run session).1 =
      let c := op.cursor (op.scope service.schema doc settings) type
      let ended := (node.resolveInto c).run.run ⟨[], session.world⟩
      ended.1.map fun data => ⟨data, ExecutionError.sort ended.2.errors⟩ := by
  unfold executeOperation
  simp only [hroot]
  rw [run_bind, Engine.run_say]
  dsimp only
  rw [run_bind, Engine.run_perform]
  dsimp only
  rcases ((node.resolveInto _).run.run _).1 with v | data <;> rfl

end GraphQL
