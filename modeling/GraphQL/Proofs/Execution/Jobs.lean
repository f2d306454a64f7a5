import GraphQL.Proofs.Execution.Instance

/-! Execution with resolvers of any kind, as jobs that share one state. A job acts on the state,
enters and leaves the code that values supply, and forks off tasks. The tasks of a fork run in turn,
or side by side; then the steps of their jobs come in any order, each as a whole. -/

namespace GraphQL

variable {σ : Type}

/-- Code that values supply: the resolver of a field, or what takes the place of the selections, as
another type or as a whole. -/
inductive Call where
  | field (t : FieldTask)
  | into (n : Narrowing)
  | whole (c : Cursor)

/-- What can be told of a job from outside. -/
inductive Mark where
  | enter (call : Call)
  | leave (call : Call)

/-- A job: how it ends, what it does to the state and how it goes on from there, a mark, or tasks
and what is done with what they give. Where planning stopped, what they give does not count. -/
inductive Job (σ : Type) where
  | finish (r : Ending)
  | act (f : Effects σ → Effects σ) (next : Effects σ → Job σ)
  | mark (m : Mark) (next : Job σ)
  | fork (concurrent : Bool) (stop : Option Violation) (tasks : List (Job σ))
      (next : Except Violation Outcome → Job σ)

namespace Job

/-- Goes on from how a job ends. -/
def andThen (k : Ending → Job σ) : Job σ → Job σ
  | finish r => k r
  | act f next => act f fun s => (next s).andThen k
  | mark m next => mark m (next.andThen k)
  | fork concurrent stop tasks next => fork concurrent stop tasks fun x => (next x).andThen k

def bind (p : Job σ) (k : Value → Job σ) : Job σ :=
  p.andThen fun
    | .ok v => k v
    | .error r => finish (.error r)

/-- A job whose failure is recorded and gives null. -/
def captured (p : Job σ) (c : Cursor) (location : Position) : Job σ :=
  p.andThen fun
    | .error (.failure e) => act (·.record c location e) fun _ => finish (.ok .null)
    | r => finish r

/-- A job within a call. -/
def during (p : Job σ) (call : Call) : Job σ :=
  mark (.enter call) (p.andThen fun r => mark (.leave call) (finish r))

/-- A step of a job from one state to another, and the marks it leaves. -/
inductive Step : Job σ → Effects σ → List Mark → Job σ → Effects σ → Prop where
  | act (f : Effects σ → Effects σ) (next : Effects σ → Job σ) (s : Effects σ) :
      Step (act f next) s [] (next (f s)) (f s)
  | mark (m : Mark) (next : Job σ) (s : Effects σ) : Step (mark m next) s [m] next s
  /-- Side by side, any task may move. -/
  | side {stop : Option Violation} {before after : List (Job σ)} {p p' : Job σ}
      {next : Except Violation Outcome → Job σ} {s s' : Effects σ} {ms : List Mark}
      (h : Step p s ms p' s') :
      Step (fork true stop (before ++ p :: after) next) s ms
        (fork true stop (before ++ p' :: after) next) s'
  /-- In turn, a task may move once all before it have given fields. -/
  | turn {given : List Ending} {after : List (Job σ)} {p p' : Job σ}
      {next : Except Violation Outcome → Job σ} {s s' : Effects σ} {ms : List Mark}
      (continues : ∀ r ∈ given, r.continues = true) (h : Step p s ms p' s') :
      Step (fork false none (given.map finish ++ p :: after) next) s ms
        (fork false none (given.map finish ++ p' :: after) next) s'
  | join (concurrent : Bool) (stop : Option Violation) (endings : List Ending)
      (next : Except Violation Outcome → Job σ) (s : Effects σ) :
      Step (fork concurrent stop (endings.map finish) next) s []
        (next (Process.joined stop endings)) s
  /-- In turn, nothing runs where planning stopped. -/
  | stop (v : Violation) (tasks : List (Job σ)) (next : Except Violation Outcome → Job σ)
      (s : Effects σ) : Step (fork false (some v) tasks next) s [] (next (.error v)) s
  /-- In turn, a task that decides is the last one. -/
  | decide {given : List Ending} {r : Ending} {after : List (Job σ)}
      {next : Except Violation Outcome → Job σ} {s : Effects σ}
      (continues : ∀ r ∈ given, r.continues = true) (decides : r.continues = false) :
      Step (fork false none (given.map finish ++ finish r :: after) next) s []
        (next (Process.joined none (given ++ [r]))) s

/-- Runs of a job to its end: from one state to another, with the marks in the order they come. -/
inductive Runs : Job σ → Effects σ → List Mark → Ending → Effects σ → Prop where
  | finish (r : Ending) (s : Effects σ) : Runs (finish r) s [] r s
  | step {p p' : Job σ} {s s' s'' : Effects σ} {ms ms' : List Mark} {r : Ending}
      (h : Step p s ms p' s') (rest : Runs p' s' ms' r s'') : Runs p s (ms ++ ms') r s''

theorem runs_finish_iff {r r' : Ending} {s s' : Effects σ} {ms : List Mark} :
    Runs (finish r) s ms r' s' ↔ ms = [] ∧ r' = r ∧ s' = s := by
  constructor
  · intro h
    cases h with
    | finish => exact ⟨rfl, rfl, rfl⟩
    | step h => cases h
  · rintro ⟨rfl, rfl, rfl⟩
    exact .finish r' s'

theorem runs_act_iff {f : Effects σ → Effects σ} {next : Effects σ → Job σ} {s s' : Effects σ}
    {ms : List Mark} {r : Ending} :
    Runs (act f next) s ms r s' ↔ Runs (next (f s)) (f s) ms r s' := by
  constructor
  · intro h
    cases h with
    | step h rest =>
      cases h
      exact rest
  · exact fun h => .step (.act f next s) h

theorem runs_mark_iff {m : Mark} {next : Job σ} {s s' : Effects σ} {ms : List Mark} {r : Ending} :
    Runs (mark m next) s ms r s' ↔ ∃ rest, ms = m :: rest ∧ Runs next s rest r s' := by
  constructor
  · intro h
    cases h with
    | step h rest =>
      cases h
      exact ⟨_, rfl, rest⟩
  · rintro ⟨rest, rfl, h⟩
    exact .step (.mark m next s) h

theorem Step.andThen {p p' : Job σ} {s s' : Effects σ} {ms : List Mark} (h : Step p s ms p' s')
    (k : Ending → Job σ) : Step (p.andThen k) s ms (p'.andThen k) s' := by
  cases h with
  | act f next => exact .act f _ s
  | mark m next => exact .mark m _ s
  | side h => exact .side h
  | turn continues h => exact .turn continues h
  | join concurrent stop endings next => exact .join concurrent stop endings _ s
  | stop v tasks next => exact .stop v tasks _ s
  | decide continues decides => exact .decide continues decides

/-- A step of a job that goes on is one of the job itself, unless it has ended. -/
theorem Step.of_andThen {p q : Job σ} {s s' : Effects σ} {ms : List Mark} {k : Ending → Job σ}
    (h : Step (p.andThen k) s ms q s') :
    (∃ r, p = .finish r) ∨ ∃ p', q = p'.andThen k ∧ Step p s ms p' s' := by
  cases p with
  | finish r => exact .inl ⟨r, rfl⟩
  | act f next =>
    cases h
    exact .inr ⟨_, rfl, .act f next s⟩
  | mark m next =>
    cases h
    exact .inr ⟨_, rfl, .mark m next s⟩
  | fork concurrent stop tasks next =>
    right
    rw [Job.andThen] at h
    cases h with
    | @side _ before after p p' _ _ _ _ h =>
      exact ⟨fork true stop (before ++ p' :: after) next, rfl, .side h⟩
    | @turn given after p p' _ _ _ _ continues h =>
      exact ⟨fork false none (given.map finish ++ p' :: after) next, rfl, .turn continues h⟩
    | join _ _ endings => exact ⟨_, rfl, .join concurrent stop endings next s⟩
    | stop v => exact ⟨_, rfl, .stop v tasks next s⟩
    | decide continues decides => exact ⟨_, rfl, .decide continues decides⟩

theorem Runs.andThen {p : Job σ} {k : Ending → Job σ} {s s' s'' : Effects σ} {ms ms' : List Mark}
    {r r' : Ending} (h : Runs p s ms r s') (h' : Runs (k r) s' ms' r' s'') :
    Runs (p.andThen k) s (ms ++ ms') r' s'' := by
  induction h with
  | finish => exact h'
  | step hstep _ ih =>
    rw [List.append_assoc]
    exact .step (hstep.andThen k) (ih h')

/-- A run of a job that goes on is a run of the job and one of what comes after it. -/
theorem Runs.of_andThen {p : Job σ} {k : Ending → Job σ} {s s'' : Effects σ} {ms : List Mark}
    {r' : Ending} (h : Runs (p.andThen k) s ms r' s'') :
    ∃ ms₁ r s' ms₂, ms = ms₁ ++ ms₂ ∧ Runs p s ms₁ r s' ∧ Runs (k r) s' ms₂ r' s'' := by
  generalize hq : p.andThen k = q at h
  induction h generalizing p with
  | finish r s =>
    cases p with
    | finish r₀ =>
      have hr : k r₀ = .finish r := hq
      exact ⟨[], r₀, s, [], rfl, .finish r₀ s, hr.symm ▸ .finish r s⟩
    | act | mark | fork => cases hq
  | @step q q' s s' s'' ms ms' r hstep rest ih =>
    subst hq
    rcases hstep.of_andThen with ⟨r₀, rfl⟩ | ⟨p', rfl, hp⟩
    · exact ⟨[], r₀, s, ms ++ ms', rfl, .finish r₀ s, .step hstep rest⟩
    · obtain ⟨ms₁, r₁, s₁, ms₂, rfl, hruns, hrest⟩ := ih rfl
      exact ⟨ms ++ ms₁, r₁, s₁, ms₂, (List.append_assoc _ _ _).symm, .step hp hruns, hrest⟩

/-- Runs within a call begin with its entry and end with its leaving. -/
theorem runs_during_iff {p : Job σ} {call : Call} {s s' : Effects σ} {ms : List Mark}
    {r : Ending} : Runs (p.during call) s ms r s' ↔
      ∃ inner, ms = .enter call :: (inner ++ [.leave call]) ∧ Runs p s inner r s' := by
  unfold during
  rw [runs_mark_iff]
  constructor
  · rintro ⟨_, rfl, h⟩
    obtain ⟨inner, r₁, s₁, last, rfl, hp, hlast⟩ := h.of_andThen
    obtain ⟨_, rfl, hend⟩ := runs_mark_iff.mp hlast
    obtain ⟨rfl, rfl, rfl⟩ := runs_finish_iff.mp hend
    exact ⟨inner, rfl, hp⟩
  · rintro ⟨inner, rfl, hp⟩
    have hend : Runs (mark (.leave call) (finish r)) s' [.leave call] r s' :=
      runs_mark_iff.mpr ⟨[], rfl, .finish r s'⟩
    exact ⟨_, rfl, hp.andThen hend⟩

end Job

/-- Handlers of the fields of an object and of its changes of type, as jobs. -/
structure Job.Handlers (σ : Type) where
  objectName : Text
  field : FieldTask → Job σ
  into : Text → Cursor → Option (Job σ)

mutual

def Step.job (h : Job.Handlers σ) (concurrent : Bool) : Step → Job σ
  | .typename key => .finish (.ok (.object [(key, .ofText h.objectName)]))
  | .field t => (((h.field t).during (.field t)).captured t.cursor t.location).bind fun v =>
    .finish (.ok (if t.nonNull && v.isNull then .null else .object [(t.key, v)]))
  | .splice plan => .fork concurrent (plan ()).stop? ((plan ()).jobs h concurrent)
    fun x => .finish (.ofOutcome x)
  | .narrow n plan =>
    match h.into n.condition n.cursor with
    | some p => ((p.during (.into n)).captured n.cursor n.location).bind fun v =>
      .finish (.ok (.object (Value.fieldsOrNone (some v))))
    | none => (Job.fork concurrent (plan ()).stop? ((plan ()).jobs h concurrent)
      fun x => .finish (.ofOutcome x)).bind fun v =>
        .finish (.ok (.object (Value.fieldsOrNone (some v))))

def Plan.jobs (h : Job.Handlers σ) (concurrent : Bool) : Plan → List (Job σ)
  | .done => []
  | .stop _ => []
  | .step s rest => s.job h concurrent :: rest.jobs h concurrent

end

/-- The job of a plan: its tasks, joined to an object or null. -/
def Plan.job (h : Job.Handlers σ) (concurrent : Bool) (p : Plan) : Job σ :=
  .fork concurrent p.stop? (p.jobs h concurrent) fun x => .finish (.ofOutcome x)

mutual

/-- The job of resolving what is selected at a cursor on a value. -/
def Node.job : Node σ → Cursor → Job σ
  | .mk typeName objectName field into whole, c =>
    match whole.job? c with
    | some p => p.during (.whole c)
    | none =>
      match c.selections with
      | none => .finish (.error (.violation (.noSelectionSet typeName)))
      | some selections =>
        match c.scope.schema.requireType typeName with
        | .error v => .finish (.error (.violation v))
        | .ok type => (Plan.ofSelectionSet ⟨type, objectName⟩ c selections).job
          ⟨objectName, fun t => (field t.name t.arguments t.cursor).job t.cursor,
            fun condition c => (into condition).job? c⟩ c.isConcurrent

def Override.job? : Override σ → Cursor → Option (Job σ)
  | .none, _ => none
  | .custom f, c => some ((f c).job c)

def Action.job : Action σ → Cursor → Job σ
  | .value v, _ => .finish (.ok v)
  | .fail e, _ => .finish (.error (.failure e))
  | .violate v, _ => .finish (.error (.violation v))
  | .report e location next, c =>
    .act (·.record c (location.getD c.location) e) fun _ => next.job c
  | .update f next, c =>
    .act (fun s => { s with world := f s.world }) fun s => (next s.world).job c
  | .resolve node next, c => (Job.ofPresent node c).bind fun v => (next v).job c
  | .resolveInto node next, c => ((node.job c).captured c c.location).bind fun v => (next v).job c
  | .resolveList nodes next, c =>
    match c.currentType.element? with
    | none => .finish (.error (.violation (.notList c.currentType.toText)))
    | some element => (Job.ofItems element.isNonNull nodes 0 c).bind fun v => (next v).job c

def Job.ofPresent : Option (Node σ) → Cursor → Job σ
  | none, _ => .finish (.error (.failure (.ofText (lit "Resolved a missing value"))))
  | some node, c => node.job c

def Job.ofItem : Option (Node σ) → Cursor → Job σ
  | none, _ => .finish (.ok .null)
  | some node, c => (node.job c).captured c c.location

/-- The job of the items of a list from an index on. -/
def Job.ofItems (stopOnNull : Bool) : List (Option (Node σ)) → Nat → Cursor → Job σ
  | [], _, _ => .finish (.ok (.list []))
  | node :: rest, i, c => (Job.ofItem node (c.atIndex i)).bind fun v =>
    if stopOnNull && v.isNull then .finish (.ok .null)
    else (Job.ofItems stopOnNull rest (i + 1) c).bind fun items =>
      .finish (.ok (v.consItem items))

end

end GraphQL
