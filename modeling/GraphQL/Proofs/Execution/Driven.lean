import Mathlib.Data.List.Forall2
import GraphQL.Proofs.Execution.Concurrency
import GraphQL.Proofs.Execution.Jobs

/-! Execution as one of the runs of its job: that in which the tasks of a fork run from the first to
the last, also where they may run side by side. -/

namespace GraphQL

variable {σ : Type}

theorem Ending.continues_eq {r : Ending} {x : Except Violation Outcome} (h : r.toOutcome = x) :
    r.continues = (ofOutcome x).continues := by
  unfold continues
  rw [toOutcome_ofOutcome, h]

namespace Job

/-- A run of one task inside a fork whose tasks run side by side. -/
theorem runs_side {stop : Option Violation} {before after : List (Job σ)}
    {next : Except Violation Outcome → Job σ} {p : Job σ} {s s' s'' : Effects σ}
    {ms ms' : List Mark} {r r' : Ending} (hp : Runs p s ms r s')
    (h : Runs (fork true stop (before ++ finish r :: after) next) s' ms' r' s'') :
    Runs (fork true stop (before ++ p :: after) next) s (ms ++ ms') r' s'' := by
  induction hp with
  | finish => exact h
  | step hstep _ ih =>
    rw [List.append_assoc]
    exact .step (.side hstep) (ih h)

/-- A run of one task inside a fork whose tasks run in turn. -/
theorem runs_turn {given : List Ending} {after : List (Job σ)}
    {next : Except Violation Outcome → Job σ} {p : Job σ} {s s' s'' : Effects σ}
    {ms ms' : List Mark} {r r' : Ending} (continues : ∀ r ∈ given, r.continues = true)
    (hp : Runs p s ms r s')
    (h : Runs (fork false none (given.map finish ++ finish r :: after) next) s' ms' r' s'') :
    Runs (fork false none (given.map finish ++ p :: after) next) s (ms ++ ms') r' s'' := by
  induction hp with
  | finish => exact h
  | step hstep _ ih =>
    rw [List.append_assoc]
    exact .step (.turn continues hstep) (ih h)

/-- A computation that is a run of a job, wherever it starts. -/
def Follows (p : Job σ) (x : Resolve σ Value) : Prop :=
  ∀ s, ∃ ms, Runs p s ms (x.run.run s).1 (x.run.run s).2

/-- A task that is a run of a job, wherever it starts. -/
def Drives (x : Run σ Outcome) (p : Job σ) : Prop :=
  ∀ s, ∃ ms r, Runs p s ms r (x.run.run s).2 ∧ r.toOutcome = (x.run.run s).1

namespace Follows

variable {p : Job σ} {x : Resolve σ Value}

theorem value (v : Value) : (finish (.ok v)).Follows (pure v : Resolve σ Value) :=
  fun s => ⟨[], .finish (.ok v) s⟩

theorem raise (r : Raise) : (finish (.error r)).Follows (throw r : Resolve σ Value) :=
  fun s => ⟨[], .finish (.error r) s⟩

theorem bind (hx : p.Follows x) {k : Value → Job σ} {f : Value → Resolve σ Value}
    (hk : ∀ v, (k v).Follows (f v)) : (p.bind k).Follows (x >>= f) := by
  intro s
  obtain ⟨ms, hrun⟩ := hx s
  rw [run_bind]
  rcases hr : x.run.run s with ⟨r | v, t⟩
  · rw [hr] at hrun
    exact ⟨ms ++ [], hrun.andThen (.finish (.error r) t)⟩
  · rw [hr] at hrun
    obtain ⟨ms', hrest⟩ := hk v t
    exact ⟨ms ++ ms', hrun.andThen hrest⟩

theorem during (hx : p.Follows x) (call : Call) : (p.during call).Follows x := by
  intro s
  obtain ⟨ms, hrun⟩ := hx s
  exact ⟨_, runs_during_iff.mpr ⟨ms, rfl, hrun⟩⟩

/-- A failure is recorded and gives nothing, which counts as null. -/
theorem captured (hx : p.Follows x) (c : Cursor) (location : Position) (s : Effects σ) :
    ∃ ms, Runs (p.captured c location) s ms
      ((((x.captured c location).run.run s).1.map (·.getD .null)).mapError .violation)
      ((x.captured c location).run.run s).2 := by
  obtain ⟨ms, hrun⟩ := hx s
  rw [Resolve.run_captured]
  rcases hr : x.run.run s with ⟨(e | v) | v, t⟩
  all_goals rw [hr] at hrun
  · have hrecord : Runs (act (·.record c location e) fun _ => finish (.ok .null)) t []
        (.ok .null) (t.record c location e) := runs_act_iff.mpr (.finish _ _)
    exact ⟨ms ++ [], hrun.andThen hrecord⟩
  · exact ⟨ms ++ [], hrun.andThen (.finish (.error (.violation v)) t)⟩
  · exact ⟨ms ++ [], hrun.andThen (.finish (.ok v) t)⟩

theorem orNull (hx : p.Follows x) (c : Cursor) (location : Position) :
    (p.captured c location).Follows
      (do return (← (x.captured c location).toResolve).getD .null) := by
  intro s
  obtain ⟨ms, hrun⟩ := hx.captured c location s
  refine ⟨ms, ?_⟩
  rw [run_bind, Run.run_toResolve]
  rcases hr : (x.captured c location).run.run s with ⟨v | o, t⟩
  · rw [hr] at hrun
    exact hrun
  · rw [hr] at hrun
    exact hrun

/-- A task whose failure is recorded, and whose value is turned into what the task gives. -/
theorem drives_captured (hx : p.Follows x) (c : Cursor) (location : Position)
    {f : Option Value → Outcome} {g : Value → Value}
    (hfg : ∀ o, (f o).toValue = g (o.getD .null)) :
    Drives (do return f (← x.captured c location))
      ((p.captured c location).bind fun v => finish (.ok (g v))) := by
  intro s
  obtain ⟨ms, hrun⟩ := hx.captured c location s
  rw [run_bind]
  rcases hr : (x.captured c location).run.run s with ⟨v | o, t⟩
  · rw [hr] at hrun
    have hend : Runs (finish (.error (.violation v))) t [] (.error (.violation v)) t := .finish _ _
    exact ⟨ms ++ [], _, hrun.andThen hend, rfl⟩
  · rw [hr] at hrun
    refine ⟨ms ++ [], _, hrun.andThen (.finish (.ok (g (o.getD .null))) t), ?_⟩
    rw [← hfg]
    exact Ending.toOutcome_ofOutcome (.ok (f o))

end Follows

section Forks

variable {tasks : List (Run σ Outcome)} {ps : List (Job σ)} (stop : Option Violation)
  (next : Except Violation Outcome → Job σ)

/-- Tasks that run in turn are a run of a fork in turn, up to what is done with what they give. -/
theorem runs_runInTurn (h : List.Forall₂ Drives tasks ps) {given : List Ending}
    (hgiven : ∀ r ∈ given, r.continues = true) (merged : Keyed Value) (s : Effects σ) :
    ∃ ms rs, ((Tasks.runInTurn tasks merged).run.run s).1 =
        Tasks.merge (rs.map Ending.toOutcome) merged ∧
      ∀ ms' r s'', Runs (next (Process.joined none (given ++ rs)))
          ((Tasks.runInTurn tasks merged).run.run s).2 ms' r s'' →
        Runs (fork false none (given.map finish ++ ps) next) s (ms ++ ms') r s'' := by
  induction h generalizing given merged s with
  | nil =>
    refine ⟨[], [], rfl, fun ms' r s'' hrest => ?_⟩
    rw [List.append_nil] at hrest ⊢
    exact .step (.join false none given next s) hrest
  | @cons x p tasks ps hx _ ih =>
    obtain ⟨ms, r, hrun, hr⟩ := hx s
    unfold Tasks.runInTurn
    rw [run_bind]
    rcases hxs : x.run.run s with ⟨v | _ | fields, t⟩
    all_goals
      rw [hxs] at hrun hr
      have hcontinues := Ending.continues_eq hr
    · have hmerge : Tasks.merge ([r].map Ending.toOutcome) merged = .error v := by
        simp [Tasks.merge, hr]
      refine ⟨ms, [r], hmerge.symm, fun ms' r' s'' hrest => ?_⟩
      apply runs_turn hgiven hrun
      exact .step (.decide hgiven hcontinues) hrest
    · have hmerge : Tasks.merge ([r].map Ending.toOutcome) merged = .ok none := by
        simp [Tasks.merge, hr]
      refine ⟨ms, [r], hmerge.symm, fun ms' r' s'' hrest => ?_⟩
      apply runs_turn hgiven hrun
      exact .step (.decide hgiven hcontinues) hrest
    · have hgiven' : ∀ q ∈ given ++ [r], q.continues = true := by
        intro q hq
        rcases List.mem_append.mp hq with hq | hq
        · exact hgiven q hq
        · rw [List.mem_singleton.mp hq]
          exact hcontinues
      obtain ⟨ms₁, rs, hmerge, hrest⟩ := ih hgiven' (Value.mergeFields fields merged) t
      refine ⟨ms ++ ms₁, r :: rs, ?_, fun ms' r' s'' hnext => ?_⟩
      · simp only [List.map_cons, hr, Tasks.merge]
        exact hmerge
      · rw [List.append_assoc]
        apply runs_turn hgiven hrun
        rw [List.append_cons] at hnext
        have hturn := hrest ms' r' s'' hnext
        rwa [List.map_append, List.map_singleton, List.append_assoc] at hturn

/-- Tasks that run one after another are also a run of a fork whose tasks may run side by side. -/
theorem runs_mapM (h : List.Forall₂ Drives tasks ps) (given : List Ending) (s : Effects σ) :
    ∃ ms rs, ((tasks.mapM ExceptT.run).run s).1 = rs.map Ending.toOutcome ∧
      ∀ ms' r s'', Runs (next (Process.joined stop (given ++ rs)))
          ((tasks.mapM ExceptT.run).run s).2 ms' r s'' →
        Runs (fork true stop (given.map finish ++ ps) next) s (ms ++ ms') r s'' := by
  induction h generalizing given s with
  | nil =>
    refine ⟨[], [], rfl, fun ms' r s'' hrest => ?_⟩
    rw [List.append_nil] at hrest ⊢
    exact .step (.join true stop given next s) hrest
  | @cons x p tasks ps hx _ ih =>
    obtain ⟨ms, r, hrun, hr⟩ := hx s
    obtain ⟨ms₁, rs, hall, hrest⟩ := ih (given ++ [r]) (x.run.run s).2
    rw [Tasks.run_mapM_cons]
    refine ⟨ms ++ ms₁, r :: rs, ?_, fun ms' r' s'' hnext => ?_⟩
    · rw [List.map_cons, hr, hall]
    · rw [List.append_assoc]
      apply runs_side hrun
      rw [List.append_cons] at hnext
      have hside := hrest ms' r' s'' hnext
      rwa [List.map_append, List.map_singleton, List.append_assoc] at hside

/-- Running tasks is a run of a fork up to what is done with what they give. -/
theorem runs_fork {tasks : Tasks σ} (h : List.Forall₂ Drives tasks.inOrder ps)
    (concurrent : Bool) (s : Effects σ) :
    ∃ ms, ∀ ms' r s'', Runs (next ((tasks.run concurrent).run.run s).1)
        ((tasks.run concurrent).run.run s).2 ms' r s'' →
      Runs (fork concurrent tasks.stop ps next) s (ms ++ ms') r s'' := by
  cases concurrent with
  | true =>
    have hrun : (tasks.run true).run.run s = tasks.runSideBySide.run.run s := rfl
    obtain ⟨ms, rs, hall, hrest⟩ := runs_mapM tasks.stop next h [] s
    rw [hrun, Tasks.run_runSideBySide, hall]
    exact ⟨ms, hrest⟩
  | false =>
    unfold Tasks.run
    rw [if_neg (by simp)]
    cases tasks.stop with
    | some v => exact ⟨[], fun _ _ _ hrest => .step (.stop v ps next s) hrest⟩
    | none =>
      have hnone : ∀ r ∈ ([] : List Ending), r.continues = true := by simp
      obtain ⟨ms, rs, hmerge, hrest⟩ := runs_runInTurn next h hnone [] s
      refine ⟨ms, fun ms' r s'' hnext => hrest ms' r s'' ?_⟩
      have hjoined : Process.joined none rs = ((Tasks.runInTurn tasks.inOrder []).run.run s).1 :=
        hmerge.symm
      rw [List.nil_append, hjoined]
      exact hnext

end Forks

/-- Handlers that are runs of jobs. -/
structure Handlers.Follow (hp : Handlers σ) (h : Subject.Handlers σ) : Prop where
  objectName : hp.objectName = h.objectName
  field : ∀ t, (hp.field t).Follows (h.field t)
  into : ∀ condition c,
    (h.into condition c = none ∧ hp.into condition c = none) ∨
      ∃ x p, h.into condition c = some x ∧ hp.into condition c = some p ∧ p.Follows x

end Job

section Plans

variable {h : Subject.Handlers σ} {hp : Job.Handlers σ}

mutual

theorem Step.drives_job (hh : hp.Follow h) (concurrent : Bool) :
    ∀ s : Step, Job.Drives (s.run h concurrent) (s.job hp concurrent)
  | .typename key => by
    unfold Step.job
    rw [hh.objectName]
    exact fun s => ⟨[], _, .finish _ s, rfl⟩
  | .field t => by
    refine ((hh.field t).during (.field t)).drives_captured t.cursor t.location (f := fun o =>
      if t.nonNull && (o.getD .null).isNull then none else some [(t.key, o.getD .null)])
      (g := fun v => if t.nonNull && v.isNull then .null else .object [(t.key, v)]) fun o => ?_
    split <;> rfl
  | .splice plan => by
    intro s
    obtain ⟨ms, hrest⟩ := Plan.runs_job hh concurrent (plan ()) (fun x => .finish (.ofOutcome x)) s
    exact ⟨_, _, hrest _ _ _ (.finish _ _), Ending.toOutcome_ofOutcome _⟩
  | .narrow n plan => by
    unfold Step.run Step.job
    rcases hh.into n.condition n.cursor with ⟨hx, hp'⟩ | ⟨x, p, hx, hp', hfollows⟩
    · rw [hx, hp']
      intro s
      obtain ⟨ms, hrest⟩ := Plan.runs_job hh concurrent (plan ()) _ s
      rw [run_bind]
      rcases hrun : (((plan ()).tasks h concurrent).run concurrent).run.run s
        with ⟨v | _ | fields, t⟩
      all_goals
        rw [hrun] at hrest
        exact ⟨_, _, hrest _ _ _ (.finish _ t), rfl⟩
    · rw [hx, hp']
      refine (hfollows.during (.into n)).drives_captured n.cursor n.location (f := fun o =>
        some (Value.fieldsOrNone o)) (g := fun v => .object (Value.fieldsOrNone (some v)))
        fun o => ?_
      cases o <;> rfl

theorem Plan.forall₂_drives_jobs (hh : hp.Follow h) (concurrent : Bool) :
    ∀ p : Plan, (p.tasks h concurrent).stop = p.stop? ∧
      List.Forall₂ Job.Drives (p.tasks h concurrent).inOrder (p.jobs hp concurrent)
  | .done => ⟨rfl, .nil⟩
  | .stop _ => ⟨rfl, .nil⟩
  | .step s rest => by
    obtain ⟨hstop, hrest⟩ := Plan.forall₂_drives_jobs hh concurrent rest
    exact ⟨hstop, .cons (Step.drives_job hh concurrent s) hrest⟩

/-- Running the tasks of a plan is a run of its fork, up to what is done with what they give. -/
theorem Plan.runs_job (hh : hp.Follow h) (concurrent : Bool) (p : Plan)
    (next : Except Violation Outcome → Job σ) (s : Effects σ) :
    ∃ ms, ∀ ms' r s'', Job.Runs (next (((p.tasks h concurrent).run concurrent).run.run s).1)
        (((p.tasks h concurrent).run concurrent).run.run s).2 ms' r s'' →
      Job.Runs (.fork concurrent p.stop? (p.jobs hp concurrent) next) s (ms ++ ms') r s'' := by
  obtain ⟨hstop, htasks⟩ := Plan.forall₂_drives_jobs hh concurrent p
  rw [← hstop]
  exact Job.runs_fork next htasks concurrent s

end

end Plans

theorem Cursor.follows_selections {h : Subject.Handlers σ} {hp : Job.Handlers σ}
    (hh : hp.Follow h) {c : Cursor} {type : TypeDef}
    (ht : c.scope.schema.type? h.typeName = some type) (selections : SelectionSet) :
    ((Plan.ofSelectionSet ⟨type, h.objectName⟩ c selections).job hp c.isConcurrent).Follows
      (c.resolveSelections h selections).toResolve := by
  intro s
  rw [resolveSelections_of_type ht, Run.run_toResolve]
  obtain ⟨ms, hrest⟩ := Plan.runs_job hh c.isConcurrent
    (Plan.ofSelectionSet ⟨type, h.objectName⟩ c selections) (fun x => .finish (.ofOutcome x)) s
  refine ⟨ms ++ [], hrest [] _ _ ?_⟩
  dsimp only
  rw [run_bind]
  rcases (((Plan.ofSelectionSet ⟨type, h.objectName⟩ c selections).tasks h c.isConcurrent).run
    c.isConcurrent).run.run s with ⟨v | outcome, t⟩
  · exact .finish _ t
  · exact .finish _ t

mutual

/-- Resolving what is selected on a value is a run of its job. -/
theorem Node.follows : ∀ (node : Node σ) (c : Cursor), (node.job c).Follows (node.resolve c)
  | .mk typeName objectName field into whole, c => by
    unfold Node.job Node.resolve
    rcases Override.follows whole c with ⟨hx, hp⟩ | ⟨x, p, hx, hp, hfollows⟩
    · rw [hx, hp]
      cases c.selections with
      | none => exact .raise _
      | some selections =>
        unfold Schema.requireType
        cases ht : c.scope.schema.type? typeName with
        | none =>
          intro s
          refine ⟨[], ?_⟩
          simp only [Cursor.resolveSelections, Schema.requireType, ht]
          exact .finish _ s
        | some type =>
          have hh : Job.Handlers.Follow ⟨objectName,
                fun t => (field t.name t.arguments t.cursor).job t.cursor,
                fun condition c => (into condition).job? c⟩
              ⟨typeName, objectName, fun t => (field t.name t.arguments t.cursor).run t.cursor,
                fun condition c => (into condition).run? c⟩ :=
            ⟨rfl, fun t => Action.follows (field t.name t.arguments t.cursor) t.cursor,
              fun condition c => Override.follows (into condition) c⟩
          exact Cursor.follows_selections hh ht selections
    · rw [hx, hp]
      exact hfollows.during (.whole c)

theorem Override.follows : ∀ (o : Override σ) (c : Cursor),
    (o.run? c = none ∧ o.job? c = none) ∨
      ∃ x p, o.run? c = some x ∧ o.job? c = some p ∧ p.Follows x
  | .none, _ => .inl ⟨rfl, rfl⟩
  | .custom f, c => .inr ⟨_, _, rfl, rfl, Action.follows (f c) c⟩

theorem Action.follows : ∀ (a : Action σ) (c : Cursor), (a.job c).Follows (a.run c)
  | .value v, _ => .value v
  | .fail _, _ => .raise _
  | .violate _, _ => .raise _
  | .report e location next, c => by
    intro s
    obtain ⟨ms, hrun⟩ := Action.follows next c (s.record c (location.getD c.location) e)
    exact ⟨ms, Job.runs_act_iff.mpr hrun⟩
  | .update f next, c => by
    intro s
    obtain ⟨ms, hrun⟩ := Action.follows (next (f s.world)) c { s with world := f s.world }
    exact ⟨ms, Job.runs_act_iff.mpr hrun⟩
  | .resolve node next, c =>
    (follows_ofPresent node c).bind fun v => Action.follows (next v) c
  | .resolveInto node next, c => by
    have h := ((Node.follows node c).orNull c c.location).bind fun v => Action.follows (next v) c
    unfold Action.job Action.run
    simpa only [bind_assoc, pure_bind] using h
  | .resolveList nodes next, c => by
    cases hlist : c.currentType.element? with
    | none =>
      unfold Action.job Action.run
      rw [hlist]
      exact .raise _
    | some element =>
      unfold Action.job
      rw [hlist, Action.run_resolveList hlist]
      exact (follows_ofItems element.isNonNull nodes 0 c).bind fun v => Action.follows (next v) c

theorem follows_ofPresent : ∀ (node : Option (Node σ)) (c : Cursor),
    (Job.ofPresent node c).Follows (resolvePresent node c)
  | none, _ => .raise _
  | some node, c => Node.follows node c

theorem follows_ofItem : ∀ (node : Option (Node σ)) (c : Cursor),
    (Job.ofItem node c).Follows (resolveItem node c)
  | none, _ => .value _
  | some node, c => (Node.follows node c).orNull c c.location

theorem follows_ofItems (stopOnNull : Bool) :
    ∀ (nodes : List (Option (Node σ))) (i : Nat) (c : Cursor),
      (Job.ofItems stopOnNull nodes i c).Follows
        (do return Value.ofItems? (← resolveItems stopOnNull nodes i c))
  | [], _, _ => .value _
  | node :: rest, i, c => by
    have hrest := follows_ofItems stopOnNull rest (i + 1) c
    unfold Job.ofItems
    rw [resolveItems_cons]
    refine (follows_ofItem node (c.atIndex i)).bind fun v => ?_
    split
    · exact .value _
    · exact hrest.bind fun items => .value (v.consItem items)

end

/-- The job of an operation that starts from a value: a failure of the root is recorded. -/
def Operation.job (op : Operation) (schema : Schema) (doc : Document) (settings : Settings)
    (type : TypeDef) (node : Node σ) : Job σ :=
  let c := op.cursor (op.scope schema doc settings) type
  (node.job c).captured c c.location

/-- Executing an operation is a run of its job from the world of the session, with no errors
recorded before. -/
theorem Service.exists_runs_executeOperation {service : Service σ} {op : Operation}
    {type : TypeDef} {node : Node σ} (hroot : service.root op = .ok (type, node)) (doc : Document)
    (settings : Settings) (session : Session σ) :
    ∃ ms r s', (op.job service.schema doc settings type node).Runs ⟨[], session.world⟩ ms r s' ∧
      ((service.executeOperation doc op settings).run.run session).1 = r.toOutput s'.errors ∧
      ((service.executeOperation doc op settings).run.run session).2.world = s'.world := by
  let c := op.cursor (op.scope service.schema doc settings) type
  obtain ⟨ms, hrun⟩ := (Node.follows node c).captured c c.location ⟨[], session.world⟩
  refine ⟨ms, _, _, hrun, ?_, ?_⟩
  · rw [run_executeOperation hroot]
    unfold Node.resolveInto
    dsimp only
    rw [run_bind]
    rcases ((node.resolve c).captured c c.location).run.run ⟨[], session.world⟩ with ⟨v | o, t⟩
    · rfl
    · rfl
  · unfold executeOperation
    simp only [hroot]
    rw [run_bind, Engine.run_say]
    dsimp only
    rw [run_bind, Engine.run_perform]
    unfold Node.resolveInto
    dsimp only
    rw [run_bind]
    rcases ((node.resolve c).captured c c.location).run.run ⟨[], session.world⟩ with ⟨v | o, t⟩
    · rfl
    · rfl

/-- How a job ends that only gives rise to something or breaks off. -/
def Ending.ofOpened {α : Type} : Except Violation α → Ending
  | .ok _ => .ok .null
  | .error v => .error (.violation v)

namespace SubscriptionRoot

variable (root : SubscriptionRoot σ) (c : Cursor) (type : TypeDef)

/-- The job of opening the stream of a field. -/
def fieldJob (f : RootField) : Job σ :=
  if f.head.name.value == lit "__typename" then .finish (.ok .null)
  else match type.field? f.head.name.value with
    | none => .finish (.error (.violation (.fieldNotFound f.head.name.value type.name)))
    | some declaration =>
      match c.atField ⟨f.head, declaration⟩ f.selections with
      | .error v => .finish (.error (.violation v))
      | .ok sub =>
        let t : FieldTask := ⟨f.head.responseName, f.head.name.value,
          .ofField c.scope.vars f.head declaration.arguments, sub, declaration.type.isNonNull⟩
        ((((root.stream t.name t.arguments sub).opening.job sub).during (.field t)).captured
          sub sub.location).bind fun _ => .finish (.ok .null)

/-- The job of opening the streams of fields one after another. -/
def fieldJobs : List RootField → Job σ
  | [] => .finish (.ok .null)
  | f :: rest => (root.fieldJob c type f).bind fun _ => fieldJobs rest

/-- The job of opening the streams of a root. -/
def job (selections : SelectionSet) : Job σ :=
  match RootField.ofSelectionSet c.scope root.objectName selections with
  | .error v => .finish (.error (.violation v))
  | .ok fields => root.fieldJobs c type fields

variable {root c type}

/-- Opening the stream of a field is a run of its job. -/
theorem exists_runs_openField (f : RootField) (s : Effects σ) :
    ∃ ms, (root.fieldJob c type f).Runs s ms (.ofOpened ((root.openField c type f).run.run s).1)
      ((root.openField c type f).run.run s).2 := by
  unfold fieldJob openField
  by_cases hn : f.head.name.value = lit "__typename"
  · simp only [hn, beq_self_eq_true, if_true]
    exact ⟨[], .finish _ s⟩
  · simp only [beq_false_of_ne hn, Bool.false_eq_true, if_false]
    cases hd : type.field? f.head.name.value with
    | none => exact ⟨[], .finish _ s⟩
    | some declaration =>
      dsimp only
      cases hat : c.atField ⟨f.head, declaration⟩ f.selections with
      | error v => exact ⟨[], .finish _ s⟩
      | ok sub =>
        let source := root.stream f.head.name.value
          (.ofField c.scope.vars f.head declaration.arguments) sub
        let t : FieldTask := ⟨f.head.responseName, f.head.name.value,
          .ofField c.scope.vars f.head declaration.arguments, sub, declaration.type.isNonNull⟩
        obtain ⟨ms, hrun⟩ := ((Action.follows source.opening sub).during (.field t)).captured
          sub sub.location s
        have hentered (k : Cursor → Run σ (List (Text × EventStream σ))) :
            (Run.ofExcept (.ok sub) >>= k) = k sub := rfl
        rw [hentered, run_bind]
        dsimp only
        rcases hr : (source.opening.run sub |>.captured sub sub.location).run.run s
          with ⟨v | o | v, t⟩
        all_goals
          rw [hr] at hrun
          exact ⟨ms ++ [], hrun.andThen (.finish _ t)⟩

theorem exists_runs_mapM (fields : List RootField) (s : Effects σ) :
    ∃ ms, (root.fieldJobs c type fields).Runs s ms
      (.ofOpened ((fields.mapM (root.openField c type)).run.run s).1)
      ((fields.mapM (root.openField c type)).run.run s).2 := by
  induction fields generalizing s with
  | nil => exact ⟨[], .finish _ s⟩
  | cons f rest ih =>
    obtain ⟨ms, hrun⟩ : ∃ ms, (root.fieldJob c type f).Runs s ms _ _ := exists_runs_openField f s
    rw [List.mapM_cons, run_bind]
    rcases hr : (root.openField c type f).run.run s with ⟨v | opened, t⟩
    all_goals rw [hr] at hrun
    · exact ⟨ms ++ [], hrun.andThen (.finish _ t)⟩
    · obtain ⟨ms', hrun'⟩ := ih t
      dsimp only
      rw [run_bind]
      rcases hr' : (rest.mapM (root.openField c type)).run.run t with ⟨v | others, t'⟩
      all_goals
        rw [hr'] at hrun'
        exact ⟨ms ++ ms', hrun.andThen hrun'⟩

/-- Opening the streams of a root is a run of its job. -/
theorem exists_runs_openStreams (root : SubscriptionRoot σ) (c : Cursor) (type : TypeDef)
    (selections : SelectionSet) (s : Effects σ) :
    ∃ ms, (root.job c type selections).Runs s ms
      (.ofOpened ((root.openStreams c type selections).run.run s).1)
      ((root.openStreams c type selections).run.run s).2 := by
  unfold job openStreams
  cases hfields : RootField.ofSelectionSet c.scope root.objectName selections with
  | error v => exact ⟨[], .finish _ s⟩
  | ok fields =>
    have hcollected (k : List RootField → Run σ (List (Text × EventStream σ))) :
        (Run.ofExcept (.ok fields) >>= k) = k fields := rfl
    obtain ⟨ms, hrun⟩ := exists_runs_mapM fields s
    rw [hcollected, run_bind]
    rcases hr : (fields.mapM (root.openField c type)).run.run s with ⟨v | streams, t⟩
    all_goals
      rw [hr] at hrun
      exact ⟨ms, hrun⟩

end SubscriptionRoot

/-- The job of a subscription opens the streams of its root. They are never opened side by side. -/
def Operation.subscriptionJob (op : Operation) (schema : Schema) (doc : Document)
    (settings : Settings) (type : TypeDef) (root : SubscriptionRoot σ) : Job σ :=
  root.job (op.cursor (op.scope schema doc { settings with concurrent := false }) type) type
    op.selections

/-- Subscribing is a run of its job. -/
theorem Service.exists_runs_subscribeOperation {service : Service σ} {op : Operation}
    {type : TypeDef} {root : SubscriptionRoot σ}
    (hroot : service.subscriptionRoot op = .ok (type, root)) (doc : Document)
    (settings : Settings) (session : Session σ) :
    ∃ ms r s', (op.subscriptionJob service.schema doc settings type root).Runs
        ⟨[], session.world⟩ ms r s' ∧
      ((service.subscribeOperation doc op settings).run.run session).2.world = s'.world := by
  let c := op.cursor (op.scope service.schema doc { settings with concurrent := false }) type
  obtain ⟨ms, hrun⟩ := root.exists_runs_openStreams c type op.selections ⟨[], session.world⟩
  refine ⟨ms, _, _, hrun, ?_⟩
  have hentered (k : TypeDef × SubscriptionRoot σ → Engine σ (Subscription σ)) :
      (Engine.ofExcept (.ok (type, root)) >>= k) = k (type, root) := rfl
  unfold subscribeOperation
  rw [hroot, hentered]
  dsimp only
  rw [run_bind, Engine.run_say]
  dsimp only
  rw [run_bind, Engine.run_perform]
  rcases (root.openStreams c type op.selections).run.run ⟨[], session.world⟩
    with ⟨v | streams, t⟩ <;> rfl

end GraphQL
