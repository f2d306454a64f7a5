import GraphQL.Proofs.Execution.Plans

/-! What a computation records, seen from the state it starts in, and the states in which a plan
comes to resolve its fields. -/

namespace GraphQL

variable {σ ε α β : Type}

/-- From one state to another, errors with a property are added, and none is taken back. -/
def Effects.Adds (P : ExecutionError → Prop) (s t : Effects σ) : Prop :=
  ∃ new, t.errors = s.errors ++ new ∧ ∀ e ∈ new, P e

namespace Effects.Adds

variable {P Q : ExecutionError → Prop} {s t u : Effects σ}

theorem of_eq (h : t.errors = s.errors) : Adds P s t := ⟨[], by simp [h], nofun⟩

theorem refl (s : Effects σ) : Adds P s s := of_eq rfl

theorem trans (h : Adds P s t) (h' : Adds P t u) : Adds P s u := by
  obtain ⟨new, ht, hnew⟩ := h
  obtain ⟨new', hu, hnew'⟩ := h'
  refine ⟨new ++ new', ?_, List.forall_mem_append.mpr ⟨hnew, hnew'⟩⟩
  rw [hu, ht, List.append_assoc]

theorem mono (h : Adds P s t) (hpq : ∀ e, P e → Q e) : Adds Q s t := by
  obtain ⟨new, ht, hnew⟩ := h
  exact ⟨new, ht, fun e he => hpq e (hnew e he)⟩

theorem record (s : Effects σ) (c : Cursor) (location : Position) {e : FieldError}
    (he : P ⟨location, c.path.segments, e⟩) : Adds P s (s.record c location e) :=
  ⟨[⟨location, c.path.segments, e⟩], rfl, List.forall_mem_singleton.mpr he⟩

end Effects.Adds

/-- Every error that a computation records when it starts in a state has a property. -/
def Records (P : ExecutionError → Prop) (x : ExceptT ε (StateM (Effects σ)) α) (s : Effects σ) :
    Prop :=
  ∀ e ∈ (x.run.run s).2.errors, e ∈ s.errors ∨ P e

namespace Records

variable {P Q : ExecutionError → Prop} {s : Effects σ}

theorem mono {x : ExceptT ε (StateM (Effects σ)) α} (h : Records P x s) (hpq : ∀ e, P e → Q e) :
    Records Q x s :=
  fun e he => (h e he).imp_right (hpq e)

theorem pure (a : α) : Records P (pure a : ExceptT ε (StateM (Effects σ)) α) s :=
  fun _ he => .inl he

theorem throw (r : ε) : Records P (throw r : ExceptT ε (StateM (Effects σ)) α) s :=
  fun _ he => .inl he

theorem bind {x : ExceptT ε (StateM (Effects σ)) α} {f : α → ExceptT ε (StateM (Effects σ)) β}
    (hx : Records P x s) (hf : ∀ a u, x.run.run s = (.ok a, u) → Records P (f a) u) :
    Records P (x >>= f) s := by
  intro e he
  rw [run_bind] at he
  rcases hr : x.run.run s with ⟨r | a, u⟩
  · exact hx e (by simpa [hr] using he)
  · rw [hr] at he
    exact (hf a u hr e he).elim (fun hu => hx e (by rwa [hr])) .inr

theorem toResolve {x : Run σ α} (h : Records P x s) : Records P x.toResolve s := by
  intro e he
  rw [Run.run_toResolve] at he
  exact h e he

theorem record (c : Cursor) (location : Position) (e : FieldError)
    (h : P ⟨location, c.path.segments, e⟩) :
    ∀ e' ∈ (s.record c location e).errors, e' ∈ s.errors ∨ P e' := by
  intro e' he'
  rcases List.mem_append.mp he' with he' | he'
  · exact .inl he'
  · exact .inr (List.mem_singleton.mp he' ▸ h)

theorem captured {x : Resolve σ α} {c : Cursor} {location : Position} (hx : Records P x s)
    (h : ∀ e u, x.run.run s = (.error (.failure e), u) → P ⟨location, c.path.segments, e⟩) :
    Records P (x.captured c location) s := by
  intro e he
  rw [Resolve.run_captured] at he
  rcases hr : x.run.run s with ⟨(failure | v) | a, u⟩
  · rw [hr] at he
    exact (record c location failure (h failure u hr) e he).elim (fun hu => hx e (by rwa [hr])) .inr
  · exact hx e (by simpa [hr] using he)
  · exact hx e (by simpa [hr] using he)

theorem ofExcept_bind {x : Except ε α} {f : α → ExceptT ε (StateM (Effects σ)) β}
    (hf : ∀ a, x = .ok a → Records P (f a) s) :
    Records P ((ExceptT.mk (Pure.pure x) : ExceptT ε (StateM (Effects σ)) α) >>= f) s := by
  cases x with
  | error r => exact fun _ he => .inl he
  | ok a => exact hf a rfl

end Records

namespace Tasks

/-- The tasks after one that ends in a result are run. -/
def GoesOn (concurrent : Bool) (result : Except Violation Outcome) : Prop :=
  concurrent = true ∨ ∃ fields, result = .ok (some fields)

/-- What holds of each task and the state in which it is run, when tasks are run in order from a
state on. -/
def Each (concurrent : Bool) (Q : Run σ Outcome → Effects σ → Prop) :
    List (Run σ Outcome) → Effects σ → Prop
  | [], _ => True
  | x :: rest, s =>
    Q x s ∧ (GoesOn concurrent (x.run.run s).1 → Each concurrent Q rest (x.run.run s).2)

variable {P : ExecutionError → Prop}

theorem records_runInTurn {tasks : List (Run σ Outcome)} {s : Effects σ}
    (h : Each false (Records P) tasks s) (merged : Keyed Value) :
    Records P (runInTurn tasks merged) s := by
  induction tasks generalizing s merged with
  | nil => exact .pure _
  | cons x rest ih =>
    refine .bind h.1 fun outcome u hu => ?_
    cases outcome with
    | none => exact .pure _
    | some fields =>
      have hrest := h.2 (.inr ⟨fields, by rw [hu]⟩)
      rw [hu] at hrest
      exact ih hrest _

theorem mem_errors_mapM {tasks : List (Run σ Outcome)} {s : Effects σ}
    (h : Each true (Records P) tasks s) :
    ∀ e ∈ ((tasks.mapM ExceptT.run).run s).2.errors, e ∈ s.errors ∨ P e := by
  induction tasks generalizing s with
  | nil => exact fun _ he => .inl he
  | cons x rest ih =>
    intro e he
    rw [run_mapM_cons] at he
    exact (ih (h.2 (.inl rfl)) e he).elim (h.1 e) .inr

theorem records_run {tasks : Tasks σ} {concurrent : Bool} {s : Effects σ}
    (h : concurrent = true ∨ tasks.stop = none →
      Each concurrent (Records P) tasks.inOrder s) : Records P (tasks.run concurrent) s := by
  cases concurrent with
  | true =>
    intro e he
    rw [run, if_pos rfl, run_runSideBySide] at he
    exact mem_errors_mapM (h (.inl rfl)) e he
  | false =>
    rw [run, if_neg (by simp)]
    cases hs : tasks.stop with
    | some v => exact .throw v
    | none => exact records_runInTurn (h (.inr hs)) []

end Tasks

section Plans

variable (h : Subject.Handlers σ) (concurrent : Bool) (t : FieldTask) (u : Effects σ)

/-- In turn, nothing of a plan is run if planning stopped. -/
def Plan.IsRun (p : Plan) : Prop := concurrent = true ∨ (p.tasks h concurrent).stop = none

mutual

/-- A step that is run from a state comes to resolve a field in the state `u`. -/
def Step.Starts : Step → Effects σ → Prop
  | .typename _, _ => False
  | .field task, s => task = t ∧ s = u
  | .splice plan, s => (plan ()).IsRun h concurrent ∧ (plan ()).Starts s
  | .narrow n plan, s =>
    h.into n.condition n.cursor = none ∧ (plan ()).IsRun h concurrent ∧ (plan ()).Starts s

/-- A plan that is run from a state comes to resolve a field in the state `u`. -/
def Plan.Starts : Plan → Effects σ → Prop
  | .done, _ => False
  | .stop _, _ => False
  | .step first rest, s =>
    first.Starts s ∨ (Tasks.GoesOn concurrent ((first.run h concurrent).run.run s).1 ∧
      rest.Starts ((first.run h concurrent).run.run s).2)

end

end Plans

section Plans

variable {P : ExecutionError → Prop} {h : Subject.Handlers σ} {concurrent : Bool} {t : FieldTask}
  {u : Effects σ} {field : FieldTask → Prop}

mutual

theorem Step.all_of_starts : ∀ (step : Step) (s : Effects σ), step.Starts h concurrent t u s →
    step.All field (fun _ => True) (fun _ => True) → field t
  | .field _, _, ht, hf => ht.1 ▸ hf
  | .splice plan, s, ht, hf => Plan.all_of_starts (plan ()) s ht.2 hf
  | .narrow _ plan, s, ht, hf => Plan.all_of_starts (plan ()) s ht.2.2 hf.2

theorem Plan.all_of_starts : ∀ (p : Plan) (s : Effects σ), p.Starts h concurrent t u s →
    p.All field (fun _ => True) (fun _ => True) → field t
  | .step first _, s, .inl ht, hf => Step.all_of_starts first s ht hf.1
  | .step _ rest, _, .inr ht, hf => Plan.all_of_starts rest _ ht.2 hf.2

end

mutual

theorem Step.records_run (hinto : ∀ condition c, h.into condition c = none) :
    ∀ (step : Step) (s : Effects σ), (∀ t u, step.Starts h concurrent t u s →
      Records P ((h.field t).captured t.cursor t.location) u) → Records P (step.run h concurrent) s
  | .typename _, _, _ => .pure _
  | .field t, s, hfield => .bind (hfield t s ⟨rfl, rfl⟩) fun _ _ _ => .pure _
  | .splice plan, s, hfield =>
    Tasks.records_run fun hrun => Plan.records_tasks hinto (plan ()) s fun t u ht =>
      hfield t u ⟨hrun, ht⟩
  | .narrow n plan, s, hfield => by
    have hplan : Records P (((plan ()).tasks h concurrent).run concurrent) s :=
      Tasks.records_run fun hrun => Plan.records_tasks hinto (plan ()) s fun t u ht =>
        hfield t u ⟨hinto _ _, hrun, ht⟩
    unfold Step.run
    rw [hinto]
    exact .bind hplan fun _ _ _ => .pure _

/-- What the tasks of a plan record is recorded by its fields, each in the state in which it is
resolved. -/
theorem Plan.records_tasks (hinto : ∀ condition c, h.into condition c = none) :
    ∀ (p : Plan) (s : Effects σ), (∀ t u, p.Starts h concurrent t u s →
      Records P ((h.field t).captured t.cursor t.location) u) →
      Tasks.Each concurrent (Records P) (p.tasks h concurrent).inOrder s
  | .done, _, _ => trivial
  | .stop _, _, _ => trivial
  | .step first rest, s, hfield =>
    ⟨Step.records_run hinto first s fun t u ht => hfield t u (.inl ht),
      fun hgo => Plan.records_tasks hinto rest _ fun t u ht => hfield t u (.inr ⟨hgo, ht⟩)⟩

end

end Plans

end GraphQL
