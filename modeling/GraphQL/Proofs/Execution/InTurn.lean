import GraphQL.Proofs.Execution.Collected
import GraphQL.Proofs.Execution.Driven
import GraphQL.Proofs.Execution.Leaves
import GraphQL.Proofs.Execution.Traces

/-! The root fields of a mutation. They are resolved one at a time, in the order in which they are
selected: each call on the root runs to its end, with all that it resolves, before the next one
starts where it has left off. -/

namespace GraphQL

variable {σ : Type}

namespace Ending

theorem exists_of_continues {r : Ending} (h : r.continues = true) :
    ∃ fields, r.toOutcome = .ok (some fields) := by
  unfold continues at h
  rcases hr : r.toOutcome with v | _ | fields
  · simp [hr] at h
  · simp [hr] at h
  · exact ⟨fields, rfl⟩

theorem ne_of_decides {r : Ending} (h : r.continues = false) (fields : Keyed Value) :
    r.toOutcome ≠ .ok (some fields) := by
  intro hr
  unfold continues at h
  simp [hr] at h

theorem merge_of_decides {r : Ending} (h : r.continues = false) (merged : Keyed Value) :
    Tasks.merge ([r].map toOutcome) merged = r.toOutcome := by
  rw [List.map_singleton]
  rcases hr : r.toOutcome with v | _ | fields
  · rfl
  · rfl
  · exact absurd hr (ne_of_decides h fields)

end Ending

namespace Job

/-- Tasks in turn: each runs to its end before the next one starts, up to the first that decides. -/
inductive InTurn : List (Job σ) → Effects σ → List Mark → List Ending → Effects σ → Prop where
  | nil (s : Effects σ) : InTurn [] s [] [] s
  | decide {p : Job σ} {rest : List (Job σ)} {s s' : Effects σ} {ms : List Mark} {r : Ending}
      (h : Runs p s ms r s') (decides : r.continues = false) : InTurn (p :: rest) s ms [r] s'
  | cons {p : Job σ} {rest : List (Job σ)} {s s' s'' : Effects σ} {ms ms' : List Mark} {r : Ending}
      {rs : List Ending} (h : Runs p s ms r s') (continues : r.continues = true)
      (hrest : InTurn rest s' ms' rs s'') : InTurn (p :: rest) s (ms ++ ms') (r :: rs) s''

/-- A step of the first task that has not finished comes before what the tasks do. -/
theorem InTurn.step {given : List Ending} {p p' : Job σ} {after : List (Job σ)}
    {s s' s'' : Effects σ} {ms ms' : List Mark} {rs : List Ending}
    (continues : ∀ r ∈ given, r.continues = true) (hstep : Step p s ms p' s')
    (h : InTurn (given.map finish ++ p' :: after) s' ms' rs s'') :
    InTurn (given.map finish ++ p :: after) s (ms ++ ms') rs s'' := by
  induction given generalizing rs with
  | nil =>
    cases h with
    | decide h decides => exact .decide (.step hstep h) decides
    | cons h hr hrest =>
      rw [← List.append_assoc]
      exact .cons (.step hstep h) hr hrest
  | cons r given ih =>
    have hr := continues r List.mem_cons_self
    have hgiven : ∀ q ∈ given, q.continues = true :=
      fun q hq => continues q (List.mem_cons_of_mem _ hq)
    cases h with
    | decide h decides =>
      obtain ⟨-, rfl, -⟩ := runs_finish_iff.mp h
      exact absurd hr (by simp [decides])
    | cons h _ hrest =>
      obtain ⟨rfl, rfl, rfl⟩ := runs_finish_iff.mp h
      have hall := ih hgiven hrest
      have hcons := InTurn.cons (.finish _ s) hr hall
      rw [List.nil_append] at hcons ⊢
      exact hcons

theorem InTurn.given {given : List Ending} (continues : ∀ r ∈ given, r.continues = true)
    {r : Ending} (decides : r.continues = false) (after : List (Job σ)) (s : Effects σ) :
    InTurn (given.map finish ++ finish r :: after) s [] (given ++ [r]) s := by
  induction given with
  | nil => exact .decide (.finish r s) decides
  | cons q given ih =>
    have hgiven : ∀ q ∈ given, q.continues = true :=
      fun q hq => continues q (List.mem_cons_of_mem _ hq)
    exact .cons (.finish q s) (continues q List.mem_cons_self) (ih hgiven)

theorem InTurn.finished (endings : List Ending) (s : Effects σ) :
    ∃ rs, InTurn (endings.map finish) s [] rs s ∧ ∀ merged,
      Tasks.merge (rs.map Ending.toOutcome) merged =
        Tasks.merge (endings.map Ending.toOutcome) merged := by
  induction endings with
  | nil => exact ⟨[], .nil s, fun _ => rfl⟩
  | cons r endings ih =>
    cases hr : r.continues with
    | false =>
      refine ⟨[r], .decide (.finish r s) hr, fun merged => ?_⟩
      have hmerge := @Process.merge_append_of_decides [] r endings hr merged
      exact hmerge.symm
    | true =>
      obtain ⟨rs, hrs, hmerge⟩ := ih
      refine ⟨r :: rs, .cons (.finish r s) hr hrs, fun merged => ?_⟩
      rw [List.map_cons, List.map_cons]
      rcases r.toOutcome with v | _ | fields
      · rfl
      · rfl
      · exact hmerge _

/-- A run of a fork in turn is that of its tasks one after another, and then of what is done with
what they give. -/
theorem Runs.of_fork {tasks : List (Job σ)} {next : Except Violation Outcome → Job σ}
    {s s'' : Effects σ} {ms : List Mark} {r : Ending}
    (h : Runs (fork false none tasks next) s ms r s'') :
    ∃ ms₁ rs s' ms₂, ms = ms₁ ++ ms₂ ∧ InTurn tasks s ms₁ rs s' ∧
      Runs (next (Process.joined none rs)) s' ms₂ r s'' := by
  generalize hq : fork false none tasks next = q at h
  induction h generalizing tasks with
  | finish => cases hq
  | @step q q' s s' s'' ms ms' r hstep rest ih =>
    subst hq
    cases hstep with
    | turn continues hp =>
      obtain ⟨ms₁, rs, s₁, ms₂, rfl, htasks, hnext⟩ := ih rfl
      exact ⟨ms ++ ms₁, rs, s₁, ms₂, (List.append_assoc _ _ _).symm, .step continues hp htasks,
        hnext⟩
    | join _ _ endings =>
      obtain ⟨rs, hrs, hmerge⟩ := InTurn.finished endings s
      have hjoined : Process.joined none endings = Process.joined none rs := (hmerge []).symm
      exact ⟨[], rs, s, ms', rfl, hrs, hjoined ▸ rest⟩
    | decide continues decides =>
      exact ⟨[], _, s, ms', rfl, .given continues decides _ s, rest⟩

theorem Runs.of_stopped {v : Violation} {tasks : List (Job σ)}
    {next : Except Violation Outcome → Job σ} {s s' : Effects σ} {ms : List Mark} {r : Ending}
    (h : Runs (fork false (some v) tasks next) s ms r s') : Runs (next (.error v)) s ms r s' := by
  cases h with
  | step hstep rest =>
    cases hstep with
    | join => exact rest
    | stop => exact rest

end Job

/-- A call of a field's resolver, from the state it is entered in to the state it is left in. -/
structure RootTurn (σ : Type) where
  task : FieldTask
  before : Effects σ
  inner : List Mark
  ending : Ending
  after : Effects σ

namespace RootTurn

def marks (t : RootTurn σ) : List Mark :=
  .enter (.field t.task) :: (t.inner ++ [.leave (.field t.task)])

/-- The state that a call gives way in: a failure has been recorded. -/
def settled (t : RootTurn σ) : Effects σ :=
  match t.ending with
  | .error (.failure e) => t.after.record t.task.cursor t.task.location e
  | _ => t.after

/-- What a call gives to the object: a field, which is null for a failure, or nothing if the field
refuses null. -/
def outcome (t : RootTurn σ) : Except Violation Outcome :=
  match t.ending with
  | .error (.violation v) => .error v
  | r => .ok (if t.task.nonNull && r.orNull.isNull then none else some [(t.task.key, r.orNull)])

theorem outcome_of_violation {t : RootTurn σ} {v : Violation}
    (h : t.ending = .error (.violation v)) : t.outcome = .error v := by
  unfold outcome
  rw [h]

theorem outcome_of_value {t : RootTurn σ} (h : ∀ v, t.ending ≠ .error (.violation v)) :
    t.outcome = .ok (if t.task.nonNull && t.ending.orNull.isNull then none
      else some [(t.task.key, t.ending.orNull)]) := by
  unfold outcome
  rcases hr : t.ending with (e | v) | v
  · rfl
  · exact absurd hr (h v)
  · rfl

/-- Calls one after another: each is entered in the state that the one before it gave way in. -/
inductive Chained : Effects σ → List (RootTurn σ) → Effects σ → Prop where
  | nil (s : Effects σ) : Chained s [] s
  | cons (t : RootTurn σ) {rest : List (RootTurn σ)} {s : Effects σ}
      (h : Chained t.settled rest s) : Chained t.before (t :: rest) s

theorem Chained.append {s s' s'' : Effects σ} {turns turns' : List (RootTurn σ)}
    (h : Chained s turns s') (h' : Chained s' turns' s'') : Chained s (turns ++ turns') s'' := by
  induction h with
  | nil => exact h'
  | cons t _ ih => exact .cons t (ih h')

/-- A trace that is made up of whole calls, one after another. -/
structure Trace (field : FieldTask → Job σ) (s : Effects σ) (ms : List Mark)
    (turns : List (RootTurn σ)) (s' : Effects σ) : Prop where
  marks : ms = turns.flatMap marks
  chained : Chained s turns s'
  whole : ∀ t ∈ turns, (field t.task).Runs t.before t.inner t.ending t.after

namespace Trace

variable {field : FieldTask → Job σ}

theorem nil (s : Effects σ) : Trace field s [] [] s :=
  ⟨rfl, .nil s, by simp⟩

theorem append {s s' s'' : Effects σ} {ms ms' : List Mark} {turns turns' : List (RootTurn σ)}
    (h : Trace field s ms turns s') (h' : Trace field s' ms' turns' s'') :
    Trace field s (ms ++ ms') (turns ++ turns') s'' where
  marks := by rw [h.marks, h'.marks, List.flatMap_append]
  chained := h.chained.append h'.chained
  whole t ht := (List.mem_append.mp ht).elim (h.whole t) (h'.whole t)

/-- A run of a call whose failure is recorded is one turn. -/
theorem of_captured {task : FieldTask} {s s' : Effects σ} {ms : List Mark} {r : Ending}
    (h : (((field task).during (.field task)).captured task.cursor task.location).Runs s ms r s') :
    ∃ t : RootTurn σ, t.task = task ∧ Trace field s ms [t] s' ∧
      ((∃ v, t.ending = .error (.violation v) ∧ r = .error (.violation v)) ∨
        (∀ v, t.ending ≠ .error (.violation v)) ∧ r = .ok t.ending.orNull) := by
  obtain ⟨ms₁, r₁, s₁, ms₂, rfl, hcall, hend⟩ := h.of_andThen
  obtain ⟨inner, rfl, hrun⟩ := Job.runs_during_iff.mp hcall
  let t : RootTurn σ := ⟨task, s, inner, r₁, s₁⟩
  have hwhole : ∀ q ∈ [t], (field q.task).Runs q.before q.inner q.ending q.after := by
    intro q hq
    rw [List.mem_singleton.mp hq]
    exact hrun
  have htrace (hs : s' = t.settled) : Trace field s (t.marks ++ []) [t] s' := by
    refine ⟨by simp, ?_, hwhole⟩
    rw [hs]
    exact .cons t (.nil _)
  rcases r₁ with (e | v) | v
  · obtain ⟨rfl, rfl, rfl⟩ := Job.runs_finish_iff.mp (Job.runs_act_iff.mp hend)
    exact ⟨t, rfl, htrace rfl, .inr ⟨nofun, rfl⟩⟩
  · obtain ⟨rfl, rfl, rfl⟩ := Job.runs_finish_iff.mp hend
    exact ⟨t, rfl, htrace rfl, .inl ⟨v, rfl, rfl⟩⟩
  · obtain ⟨rfl, rfl, rfl⟩ := Job.runs_finish_iff.mp hend
    exact ⟨t, rfl, htrace rfl, .inr ⟨nofun, rfl⟩⟩

end Trace

end RootTurn

mutual

/-- What a step gives, and the calls that are made for it. -/
inductive Step.Gives (objectName : Text) :
    Step → List (RootTurn σ) → Except Violation Outcome → Prop
  | typename (key : Text) :
      Step.Gives objectName (.typename key) [] (.ok (some [(key, .ofText objectName)]))
  | field (t : RootTurn σ) : Step.Gives objectName (.field t.task) [t] t.outcome
  | splice {plan : Unit → Plan} {turns : List (RootTurn σ)} {x : Except Violation Outcome}
      (h : Plan.Gives objectName (plan ()) turns x) : Step.Gives objectName (.splice plan) turns x
  | narrow {n : Narrowing} {plan : Unit → Plan} {turns : List (RootTurn σ)}
      {x : Except Violation Outcome} (h : Plan.Gives objectName (plan ()) turns x) :
      Step.Gives objectName (.narrow n plan) turns (x.map fun fields => some (fields.getD []))

/-- What a plan gives, and the calls that are made for it: none where planning stopped. -/
inductive Plan.Gives (objectName : Text) :
    Plan → List (RootTurn σ) → Except Violation Outcome → Prop
  | stop {p : Plan} {v : Violation} (h : p.stop? = some v) :
      Plan.Gives objectName p [] (.error v)
  | steps {p : Plan} {turns : List (RootTurn σ)} {x : Except Violation Outcome} (h : p.stop? = none)
      (hp : Plan.GivesOnTop objectName p [] turns x) : Plan.Gives objectName p turns x

/-- What the steps of a plan give on top of the fields that are there already: those of each step
are merged in turn, up to the first that gives none. -/
inductive Plan.GivesOnTop (objectName : Text) :
    Plan → Keyed Value → List (RootTurn σ) → Except Violation Outcome → Prop
  | done (merged : Keyed Value) : Plan.GivesOnTop objectName .done merged [] (.ok (some merged))
  | decide {s : Step} {turns : List (RootTurn σ)} {x : Except Violation Outcome}
      (h : Step.Gives objectName s turns x) (decides : ∀ fields, x ≠ .ok (some fields))
      (rest : Plan) (merged : Keyed Value) :
      Plan.GivesOnTop objectName (.step s rest) merged turns x
  | step {s : Step} {rest : Plan} {turns turns' : List (RootTurn σ)} {fields merged : Keyed Value}
      {x : Except Violation Outcome} (h : Step.Gives objectName s turns (.ok (some fields)))
      (hrest : Plan.GivesOnTop objectName rest (Value.mergeFields fields merged) turns' x) :
      Plan.GivesOnTop objectName (.step s rest) merged (turns ++ turns') x

end

/-- The call of a field as a leaf of a plan. -/
def RootTurn.leaf (t : RootTurn σ) : Leaf := .field t.task

section Plans

variable {objectName : Text}

mutual

theorem Step.Gives.sublist_leaves {s : Step} {turns : List (RootTurn σ)}
    {x : Except Violation Outcome} : s.Gives objectName turns x →
      (turns.map RootTurn.leaf).Sublist s.leaves
  | .typename _ => List.nil_sublist _
  | .field _ => .refl _
  | .splice h => Plan.Gives.sublist_leaves h
  | .narrow h => Plan.Gives.sublist_leaves h

theorem Plan.Gives.sublist_leaves {p : Plan} {turns : List (RootTurn σ)}
    {x : Except Violation Outcome} : p.Gives objectName turns x →
      (turns.map RootTurn.leaf).Sublist p.leaves
  | .stop _ => List.nil_sublist _
  | .steps _ h => Plan.GivesOnTop.sublist_leaves h

/-- Each leaf is called for at most once, in the order of the leaves. -/
theorem Plan.GivesOnTop.sublist_leaves {p : Plan} {merged : Keyed Value} {turns : List (RootTurn σ)}
    {x : Except Violation Outcome} : p.GivesOnTop objectName merged turns x →
      (turns.map RootTurn.leaf).Sublist p.leaves
  | .done _ => .refl _
  | .decide h _ _ _ => (Step.Gives.sublist_leaves h).trans (List.sublist_append_left _ _)
  | .step h hrest => by
    rw [List.map_append]
    exact (Step.Gives.sublist_leaves h).append (Plan.GivesOnTop.sublist_leaves hrest)

end

variable {h : Job.Handlers σ}

/-- The runs of a plan's tasks in turn are whole calls, one after another. -/
def Plan.RunsInTurns (h : Job.Handlers σ) (p : Plan) : Prop :=
  p.stop? = none → ∀ {s s' : Effects σ} {ms : List Mark} {rs : List Ending} (merged : Keyed Value),
    Job.InTurn (p.jobs h false) s ms rs s' →
    ∃ turns, RootTurn.Trace h.field s ms turns s' ∧
      p.GivesOnTop h.objectName merged turns (Tasks.merge (rs.map Ending.toOutcome) merged)

theorem Plan.RunsInTurns.of_fork {p : Plan} (hp : p.RunsInTurns h)
    {next : Except Violation Outcome → Job σ} {s s'' : Effects σ} {ms : List Mark} {r : Ending}
    (hruns : Job.Runs (.fork false p.stop? (p.jobs h false) next) s ms r s'') :
    ∃ turns x ms₁ s' ms₂, ms = ms₁ ++ ms₂ ∧ RootTurn.Trace h.field s ms₁ turns s' ∧
      p.Gives h.objectName turns x ∧ Job.Runs (next x) s' ms₂ r s'' := by
  cases hstop : p.stop? with
  | some v =>
    rw [hstop] at hruns
    exact ⟨[], .error v, [], s, ms, rfl, .nil s, .stop hstop, hruns.of_stopped⟩
  | none =>
    rw [hstop] at hruns
    obtain ⟨ms₁, rs, s', ms₂, rfl, htasks, hnext⟩ := hruns.of_fork
    obtain ⟨turns, htrace, hgives⟩ := hp hstop [] htasks
    exact ⟨turns, _, ms₁, s', ms₂, rfl, htrace, .steps hstop hgives, hnext⟩

mutual

theorem Step.turns_of_runs (hinto : ∀ condition c, h.into condition c = none) :
    ∀ (step : Step) {s s' : Effects σ} {ms : List Mark} {r : Ending},
      (step.job h false).Runs s ms r s' →
      ∃ turns, RootTurn.Trace h.field s ms turns s' ∧ step.Gives h.objectName turns r.toOutcome
  | .typename key, s, s', ms, r, hruns => by
    obtain ⟨rfl, rfl, rfl⟩ := Job.runs_finish_iff.mp hruns
    exact ⟨[], .nil _, .typename key⟩
  | .field task, s, s', ms, r, hruns => by
    obtain ⟨ms₁, r₁, s₁, ms₂, rfl, hcall, hend⟩ := hruns.of_andThen
    obtain ⟨t, rfl, htrace, hended⟩ := RootTurn.Trace.of_captured hcall
    have hgives : Step.Gives h.objectName (.field t.task) [t] t.outcome := .field t
    rcases hended with ⟨v, hv, rfl⟩ | ⟨hv, rfl⟩
    · obtain ⟨rfl, rfl, rfl⟩ := Job.runs_finish_iff.mp hend
      rw [RootTurn.outcome_of_violation hv] at hgives
      rw [List.append_nil]
      exact ⟨[t], htrace, hgives⟩
    · obtain ⟨rfl, rfl, rfl⟩ := Job.runs_finish_iff.mp hend
      rw [RootTurn.outcome_of_value hv] at hgives
      rw [List.append_nil]
      refine ⟨[t], htrace, ?_⟩
      convert hgives using 1
      split <;> rfl
  | .splice plan, s, s', ms, r, hruns => by
    obtain ⟨turns, x, ms₁, s₁, ms₂, rfl, htrace, hgives, hend⟩ :=
      Plan.RunsInTurns.of_fork (Plan.runsInTurns hinto (plan ())) hruns
    obtain ⟨rfl, rfl, rfl⟩ := Job.runs_finish_iff.mp hend
    rw [Ending.toOutcome_ofOutcome, List.append_nil]
    exact ⟨turns, htrace, .splice hgives⟩
  | .narrow n plan, s, s', ms, r, hruns => by
    unfold Step.job at hruns
    rw [hinto] at hruns
    obtain ⟨turns, x, ms₁, s₁, ms₂, rfl, htrace, hgives, hend⟩ :=
      Plan.RunsInTurns.of_fork (Plan.runsInTurns hinto (plan ())) hruns
    have hgives' : Step.Gives h.objectName (.narrow n plan) turns _ := .narrow hgives
    -- a fork ends in an object, in null or in a broken invariant, never in a failure
    rcases x with v | _ | fields
    all_goals
      obtain ⟨rfl, rfl, rfl⟩ := Job.runs_finish_iff.mp hend
      rw [List.append_nil]
      exact ⟨turns, htrace, hgives'⟩

theorem Plan.runsInTurns (hinto : ∀ condition c, h.into condition c = none) :
    ∀ p : Plan, p.RunsInTurns h
  | .done, _, s, s', ms, rs, merged, hruns => by
    cases hruns
    exact ⟨[], .nil s, .done merged⟩
  | .stop v, hstop, _, _, _, _, _, _ => nomatch hstop
  | .step first rest, hstop, s, s', ms, rs, merged, hruns => by
    cases hruns with
    | decide hfirst decides =>
      obtain ⟨turns, htrace, hgives⟩ := Step.turns_of_runs hinto first hfirst
      rw [Ending.merge_of_decides decides]
      exact ⟨turns, htrace, .decide hgives (Ending.ne_of_decides decides) rest merged⟩
    | cons hfirst continues hrest =>
      obtain ⟨turns, htrace, hgives⟩ := Step.turns_of_runs hinto first hfirst
      obtain ⟨fields, hfields⟩ := Ending.exists_of_continues continues
      rw [hfields] at hgives
      obtain ⟨turns', htrace', hgives'⟩ :=
        Plan.runsInTurns hinto rest hstop (Value.mergeFields fields merged) hrest
      rw [List.map_cons, hfields]
      exact ⟨turns ++ turns', htrace.append htrace', .step hgives hgives'⟩

end

end Plans

/-- What an operation selects on a root of a type that the schema may not have. -/
def Operation.rootPlan (op : Operation) (schema : Schema) (doc : Document) (settings : Settings)
    (type : TypeDef) (typeName objectName : Text) : Plan :=
  match schema.requireType typeName with
  | .error v => .stop v
  | .ok own => .ofSelectionSet ⟨own, objectName⟩
    (op.cursor (op.scope schema doc settings) type) op.selections

section Mutations

variable {op : Operation} {schema : Schema} {doc : Document} {settings : Settings}
  {type : TypeDef} {typeName objectName : Text}

theorem Operation.turns_of_runs (hop : op.type = .mutation)
    {field : Text → FieldArguments → Cursor → Action σ} {s s' : Effects σ} {ms : List Mark}
    {r : Ending} (h : ((Node.mk typeName objectName field (fun _ => .none) .none).job
      (op.cursor (op.scope schema doc settings) type)).Runs s ms r s') :
    ∃ turns x, RootTurn.Trace (fun t => (field t.name t.arguments t.cursor).job t.cursor)
        s ms turns s' ∧
      (op.rootPlan schema doc settings type typeName objectName).Gives objectName turns x ∧
      r = .ofOutcome x := by
  let handlers : Job.Handlers σ := ⟨objectName,
    fun t => (field t.name t.arguments t.cursor).job t.cursor, fun _ _ => none⟩
  unfold rootPlan
  have hserial : (op.cursor (op.scope schema doc settings) type).isConcurrent = false := by
    simp [cursor, hop, Cursor.serialized, Cursor.isConcurrent]
  have hselections : (op.cursor (op.scope schema doc settings) type).selections =
      some op.selections := by
    simp [cursor, hop, Cursor.serialized, Cursor.root]
  have hschema : (op.cursor (op.scope schema doc settings) type).scope.schema = schema := by
    simp [cursor, hop, Cursor.serialized, Cursor.root, scope]
  generalize op.cursor (op.scope schema doc settings) type = c at *
  unfold Node.job at h
  simp only [Override.job?, hselections, hschema, hserial] at h
  cases htype : schema.requireType typeName with
  | error v =>
    rw [htype] at h
    obtain ⟨rfl, rfl, rfl⟩ := Job.runs_finish_iff.mp h
    exact ⟨[], .error v, .nil _, .stop rfl, rfl⟩
  | ok own =>
    rw [htype] at h
    obtain ⟨turns, x, ms₁, s₁, ms₂, rfl, htrace, hgives, hend⟩ :=
      (Plan.runsInTurns (h := handlers) (fun _ _ => rfl) _).of_fork h
    obtain ⟨rfl, rfl, rfl⟩ := Job.runs_finish_iff.mp hend
    rw [List.append_nil]
    exact ⟨turns, x, htrace, hgives, rfl⟩

end Mutations

/-- The root fields of a mutation on a value that leaves its selections to its fields. Executing it
is one of the runs of its job, whose nested fields may be resolved side by side. Every such run is
one call on the root after another: each is entered in the state that the one before it has given
way in, it leaves whatever it enters, and it runs to its end before the next one is entered. They
come in the order of the selected fields, each of which is called for at most once, and the data are
what they give when they are merged in that order. -/
theorem Service.executeOperation_mutation_inTurn {service : Service σ} {op : Operation}
    {type : TypeDef} {typeName objectName : Text}
    {field : Text → FieldArguments → Cursor → Action σ} (hop : op.type = .mutation)
    (hroot : service.root op =
      .ok (type, .mk typeName objectName field (fun _ => .none) .none))
    (doc : Document) (settings : Settings) (session : Session σ) :
    let job := op.job service.schema doc settings type
      (.mk typeName objectName field (fun _ => .none) .none)
    let plan := op.rootPlan service.schema doc settings type typeName objectName
    let scope := op.scope service.schema doc settings
    (∃ ms r s', job.Runs ⟨[], session.world⟩ ms r s' ∧
      ((service.executeOperation doc op settings).run.run session).1 = r.toOutput s'.errors ∧
      ((service.executeOperation doc op settings).run.run session).2.world = s'.world) ∧
    ∀ ms r s', job.Runs ⟨[], session.world⟩ ms r s' → ∃ turns x,
      RootTurn.Trace (fun t => (field t.name t.arguments t.cursor).job t.cursor)
        ⟨[], session.world⟩ ms turns s' ∧
      (∀ t ∈ turns, Mark.Balanced t.inner) ∧
      (turns.map RootTurn.leaf).Sublist plan.leaves ∧
      (∀ own fields, service.schema.type? typeName = some own →
        RootField.ofSelectionSet scope objectName op.selections = .ok fields →
        List.SublistForall₂ (fun l f => l.Selects scope.vars own f)
          (turns.map RootTurn.leaf) fields) ∧
      plan.Gives objectName turns x ∧ r = .ofOutcome x := by
  refine ⟨exists_runs_executeOperation hroot doc settings session, fun ms r s' hruns => ?_⟩
  obtain ⟨ms₁, r₁, s₁, ms₂, rfl, hnode, hend⟩ := hruns.of_andThen
  obtain ⟨turns, x, htrace, hgives, rfl⟩ := Operation.turns_of_runs hop hnode
  have hlast : ms₂ = [] ∧ r = .ofOutcome x ∧ s' = s₁ := by
    -- a selection set never ends in a failure, so that nothing is recorded at the root
    cases x with
    | error v => exact Job.runs_finish_iff.mp hend
    | ok outcome => exact Job.runs_finish_iff.mp hend
  obtain ⟨rfl, rfl, rfl⟩ := hlast
  rw [List.append_nil]
  have hleaves := hgives.sublist_leaves
  refine ⟨turns, x, htrace, fun t ht => ?_, hleaves, fun own fields hown hfields => ?_, hgives, rfl⟩
  · exact Action.balanced_of_runs (htrace.whole t ht)
  · have hscope : (op.cursor (op.scope service.schema doc settings) type).scope =
        op.scope service.schema doc settings := by
      simp [Operation.cursor, hop, Cursor.serialized, Cursor.root]
    have hplan := Plan.covers_ofSelectionSet ⟨own, objectName⟩ hscope op.selections fields hfields
    apply sublistForall₂_of_sublist hleaves
    unfold Operation.rootPlan Schema.requireType
    rw [hown]
    exact hplan

namespace Counter

def mutation : ObjectDef :=
  ⟨lit "Mutation", none, [⟨lit "next", none, none, .named (lit "Int") true, .current⟩], []⟩

def schema : Schema :=
  ⟨[(lit "Int", .scalar Scalars.int), (lit "Mutation", .object mutation)], lit "Query",
    some (lit "Mutation"), none, [], none⟩

/-- Each call of a field counts one on. -/
def next (_ : Text) (_ : FieldArguments) (_ : Cursor) : Action Nat :=
  .update (· + 1) fun n => .value (.scalar (.int (.ofNat n)))

def root : Node Nat := .mk (lit "Mutation") (lit "Mutation") next (fun _ => .none) .none

def service : Service Nat := ⟨schema, none, some root, none⟩

def operation : Operation :=
  ⟨.mutation, none, none, none, [.ofName (lit "next") none,
    .inFragment (some (lit "Mutation")) [.ofName (lit "next") none]], .unlocated⟩

theorem counts_inTurn : operation.type = .mutation ∧
    service.root operation = .ok (.object mutation, root) ∧
    ∃ ms r s' turns x,
      (operation.job schema [.operation operation] ⟨[], none, true⟩ (.object mutation) root).Runs
        ⟨[], 0⟩ ms r s' ∧
      RootTurn.Trace (fun t => (next t.name t.arguments t.cursor).job t.cursor)
        ⟨[], 0⟩ ms turns s' ∧
      (operation.rootPlan schema [.operation operation] ⟨[], none, true⟩ (.object mutation)
        (lit "Mutation") (lit "Mutation")).Gives (lit "Mutation") turns x ∧ r = .ofOutcome x := by
  have hroot : service.root operation = .ok (.object mutation, root) := rfl
  obtain ⟨⟨ms, r, s', hruns, -, -⟩, hturns⟩ := Service.executeOperation_mutation_inTurn
    rfl hroot [.operation operation] ⟨[], none, true⟩ ⟨[], 0⟩
  obtain ⟨turns, x, htrace, -, -, -, hgives, hr⟩ := hturns ms r s' hruns
  exact ⟨rfl, hroot, ms, r, s', turns, x, hruns, htrace, hgives, hr⟩

end Counter

end GraphQL
