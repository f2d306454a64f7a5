import Mathlib.Data.List.Forall2
import GraphQL.Proofs.Execution.Instance
import GraphQL.Proofs.Execution.Modes

/-! What execution does with pure resolvers: it ends as their process does and records the errors of
the process, whatever has been recorded before and whatever world it starts in. -/

namespace GraphQL

variable {σ ε α β : Type}

/-- A computation that ends in the same way wherever it starts and does nothing but record errors. -/
def Appends (x : ExceptT ε (StateM (Effects σ)) α) (r : Except ε α) (es : List ExecutionError) :
    Prop :=
  ∀ s, x.run.run s = (r, { s with errors := s.errors ++ es })

namespace Appends

theorem pure (a : α) : Appends (pure a : ExceptT ε (StateM (Effects σ)) α) (.ok a) [] := by
  intro s
  simp only [List.append_nil]
  rfl

theorem throw (e : ε) : Appends (throw e : ExceptT ε (StateM (Effects σ)) α) (.error e) [] := by
  intro s
  simp only [List.append_nil]
  rfl

theorem bind_ok {x : ExceptT ε (StateM (Effects σ)) α} {f : α → ExceptT ε (StateM (Effects σ)) β}
    {a : α} {r : Except ε β} {es es' : List ExecutionError} (hx : Appends x (.ok a) es)
    (hf : Appends (f a) r es') : Appends (x >>= f) r (es ++ es') := by
  intro s
  rw [run_bind, hx s]
  exact (hf _).trans (by rw [List.append_assoc])

theorem bind_error {x : ExceptT ε (StateM (Effects σ)) α}
    {f : α → ExceptT ε (StateM (Effects σ)) β} {e : ε} {es : List ExecutionError}
    (hx : Appends x (.error e) es) : Appends (x >>= f) (.error e) es := by
  intro s
  rw [run_bind, hx s]

theorem map {x : Run σ α} {r : Except Violation α} {es : List ExecutionError}
    (hx : Appends x r es) (g : α → β) :
    Appends (do return g (← x)) (r.map g) es := by
  cases r with
  | error v => exact hx.bind_error
  | ok a =>
    have hbind := hx.bind_ok (f := fun a => (Pure.pure (g a) : Run σ β)) (.pure _)
    rwa [List.append_nil] at hbind

theorem ofExcept (x : Except Violation α) : Appends (Run.ofExcept x : Run σ α) x [] := by
  intro s
  simp only [List.append_nil]
  rfl

theorem toResolve {x : Run σ α} {r : Except Violation α} {es : List ExecutionError}
    (hx : Appends x r es) : Appends x.toResolve (r.mapError .violation) es := by
  intro s
  rw [Run.run_toResolve, hx s]

end Appends

/-- A computation that ends as a process does and records its errors. -/
def Process.Follows (concurrent : Bool) (p : Process) (x : Resolve σ Value) : Prop :=
  Appends x p.result (p.errors concurrent)

namespace Process.Follows

variable {concurrent : Bool} {p : Process} {x : Resolve σ Value}

theorem value (v : Value) :
    Follows concurrent (.finish (.ok v)) (Pure.pure v : Resolve σ Value) := .pure v

theorem raise (r : Raise) :
    Follows concurrent (.finish (.error r)) (throw r : Resolve σ Value) := .throw r

theorem bind (hx : Follows concurrent p x) {k : Value → Process} {f : Value → Resolve σ Value}
    (hk : ∀ v, Follows concurrent (k v) (f v)) : Follows concurrent (p.bind k) (x >>= f) := by
  unfold Follows Process.bind at *
  rw [result_andThen, errors_andThen]
  cases hr : p.result with
  | ok v =>
    rw [hr] at hx
    exact hx.bind_ok (hk v)
  | error r =>
    rw [hr] at hx
    simpa [result, errors] using hx.bind_error (f := f)

theorem captured (hx : Follows concurrent p x) (c : Cursor) (location : Position) :
    ∃ r : Except Violation (Option Value),
      Appends (x.captured c location) r ((p.captured c location).errors concurrent) ∧
      (p.captured c location).result = (r.map (·.getD .null)).mapError .violation := by
  have hrun (s : Effects σ) := Resolve.run_captured x c location s
  unfold Process.captured
  rw [result_andThen, errors_andThen]
  rcases hr : p.result with (e | v) | v
  all_goals
    unfold Follows at hx
    rw [hr] at hx
  · refine ⟨.ok none, fun s => ?_, rfl⟩
    rw [hrun, hx s]
    simp [Effects.record, errors]
  · refine ⟨.error v, fun s => ?_, rfl⟩
    rw [hrun, hx s]
    simp [errors]
  · refine ⟨.ok (some v), fun s => ?_, rfl⟩
    rw [hrun, hx s]
    simp [errors]

theorem orNull (hx : Follows concurrent p x) (c : Cursor) (location : Position) :
    Follows concurrent (p.captured c location)
      (do return (← (x.captured c location).toResolve).getD .null) := by
  obtain ⟨r, hr, hresult⟩ := hx.captured c location
  unfold Follows
  rw [hresult]
  cases r with
  | ok o =>
    have hvalue := hr.toResolve.bind_ok (f := fun o => (Pure.pure (o.getD .null) : Resolve σ Value))
      (.pure (o.getD .null))
    rwa [List.append_nil] at hvalue
  | error v => exact hr.toResolve.bind_error

end Process.Follows

section Tasks

variable {concurrent : Bool} {tasks : List (Run σ Outcome)} {ps : List Process}

/-- A task that gives what a process gives and records its errors. -/
def Process.Drives (concurrent : Bool) (x : Run σ Outcome) (p : Process) : Prop :=
  Appends x p.result.toOutcome (p.errors concurrent)

theorem Tasks.appends_runInTurn (h : List.Forall₂ (Process.Drives concurrent) tasks ps)
    (merged : Keyed Value) :
    Appends (runInTurn tasks merged)
      (merge ((Process.results ps).map Ending.toOutcome) merged)
      (Process.errorsInTurn concurrent ps) := by
  induction h generalizing merged with
  | nil => exact .pure _
  | @cons x p rest ps hx _ ih =>
    unfold Process.Drives at hx
    simp only [Process.results, List.map_cons, Process.errorsInTurn]
    rcases ho : p.result.toOutcome with v | _ | fields
    · rw [ho] at hx
      simp only [Ending.continues, ho, Bool.false_eq_true, if_false, List.append_nil]
      exact hx.bind_error
    · rw [ho] at hx
      simp only [Ending.continues, ho, Bool.false_eq_true, if_false]
      exact hx.bind_ok (.pure none)
    · rw [ho] at hx
      simp only [Ending.continues, ho, if_true]
      exact hx.bind_ok (ih _)

theorem Tasks.appends_mapM (h : List.Forall₂ (Process.Drives concurrent) tasks ps)
    (s : Effects σ) :
    (tasks.mapM ExceptT.run).run s =
      ((Process.results ps).map Ending.toOutcome,
        { s with errors := s.errors ++ Process.errorsOfAll concurrent ps }) := by
  induction h generalizing s with
  | nil =>
    simp only [Process.errorsOfAll, List.append_nil]
    rfl
  | cons hx _ ih =>
    rw [run_mapM_cons, hx s, ih]
    simp [Process.results, Process.errorsOfAll]

/-- Tasks give together what their processes give when they are joined. -/
theorem Tasks.appends_run {tasks : Tasks σ}
    (h : List.Forall₂ (Process.Drives concurrent) tasks.inOrder ps) (serial : Bool) :
    Appends (tasks.run (Process.sideBySide concurrent serial))
      (Process.joined tasks.stop (Process.results ps))
      (if Process.sideBySide concurrent serial then Process.errorsOfAll concurrent ps
        else if tasks.stop.isSome then [] else Process.errorsInTurn concurrent ps) := by
  unfold run Process.joined
  cases Process.sideBySide concurrent serial with
  | true =>
    intro s
    rw [if_pos rfl, run_runSideBySide, appends_mapM h s]
    rfl
  | false =>
    cases tasks.stop with
    | some v => exact .throw v
    | none => exact appends_runInTurn h []

end Tasks

section Plans

/-- Handlers that follow processes wherever the request has a given mode. -/
structure Subject.Handlers.Follow (concurrent : Bool) (h : Subject.Handlers σ)
    (hp : Process.Handlers) : Prop where
  objectName : hp.objectName = h.objectName
  field : ∀ t, t.cursor.scope.concurrent = concurrent → (hp.field t).Follows concurrent (h.field t)
  into : ∀ condition c, c.scope.concurrent = concurrent →
    (h.into condition c = none ∧ hp.into condition c = none) ∨
      ∃ x p, h.into condition c = some x ∧ hp.into condition c = some p ∧ p.Follows concurrent x

variable {concurrent : Bool} {h : Subject.Handlers σ} {hp : Process.Handlers}

theorem Process.Follows.drives_captured {p : Process} {x : Resolve σ Value}
    (hx : p.Follows concurrent x) (c : Cursor) (location : Position)
    {f : Option Value → Outcome} {g : Value → Value}
    (hfg : ∀ o, (f o).toValue = g (o.getD .null)) :
    Process.Drives concurrent (do return f (← x.captured c location))
      ((p.captured c location).bind fun v => .finish (.ok (g v))) := by
  obtain ⟨r, hr, hresult⟩ := hx.captured c location
  unfold Process.Drives Process.bind
  rw [Process.result_andThen, Process.errors_andThen, hresult]
  cases r with
  | ok o =>
    have hend : Ending.toOutcome (.ok (g (o.getD .null))) = .ok (f o) := by
      rw [← hfg]
      exact Ending.toOutcome_ofOutcome (.ok (f o))
    change Appends _ (Ending.toOutcome (.ok (g (o.getD .null)))) (_ ++ [])
    rw [hend]
    exact hr.bind_ok (.pure (f o))
  | error v =>
    change Appends _ (.error v) (_ ++ [])
    rw [List.append_nil]
    exact hr.bind_error

theorem Process.Drives.orEmpty {p : Plan} {serial : Bool} {x : Run σ Outcome}
    (hx : Drives concurrent x (p.process hp serial)) :
    Drives concurrent (do return some ((← x).getD []))
      ((p.process hp serial).bind fun v => .finish (.ok (.object (Value.fieldsOrNone (some v))))) := by
  have hresult : (p.process hp serial).result =
    .ofOutcome (joined p.stop? (results (p.processes hp serial))) := rfl
  unfold Drives bind at *
  rw [result_andThen, errors_andThen, hresult]
  rw [hresult, Ending.toOutcome_ofOutcome] at hx
  rcases hj : joined p.stop? (results (p.processes hp serial)) with v | _ | fields
  all_goals rw [hj] at hx
  · change Appends _ (.error v) (_ ++ [])
    rw [List.append_nil]
    exact hx.bind_error
  · exact hx.bind_ok (.pure (some []))
  · exact hx.bind_ok (.pure (some fields))

mutual

theorem Step.drives (hh : h.Follow concurrent hp) (serial : Bool) :
    ∀ s : Step, s.IsIn concurrent →
      Process.Drives concurrent (s.run h (Process.sideBySide concurrent serial))
        (s.process hp serial)
  | .typename key, _ => by
    unfold Step.process
    rw [hh.objectName]
    exact .pure _
  | .field t, ht => by
    refine (hh.field t ht).drives_captured t.cursor t.location (f := fun o =>
      if t.nonNull && (o.getD .null).isNull then none else some [(t.key, o.getD .null)])
      (g := fun v => if t.nonNull && v.isNull then .null else .object [(t.key, v)]) fun o => ?_
    split <;> rfl
  | .splice plan, ht => Plan.drives hh serial (plan ()) ht
  | .narrow n plan, ⟨hn, ht⟩ => by
    have hplan := Plan.drives hh serial (plan ()) ht
    unfold Step.run Step.process
    rcases hh.into n.condition n.cursor hn with ⟨hx, hp'⟩ | ⟨x, p, hx, hp', hfollows⟩
    · rw [hx, hp']
      exact hplan.orEmpty
    · rw [hx, hp']
      refine hfollows.drives_captured n.cursor n.location (f := fun o =>
        some (Value.fieldsOrNone o)) (g := fun v => .object (Value.fieldsOrNone (some v)))
        fun o => ?_
      cases o <;> rfl

theorem Plan.forall₂_drives (hh : h.Follow concurrent hp) (serial : Bool) :
    ∀ p : Plan, p.IsIn concurrent →
      (p.tasks h (Process.sideBySide concurrent serial)).stop = p.stop? ∧
        List.Forall₂ (Process.Drives concurrent)
          (p.tasks h (Process.sideBySide concurrent serial)).inOrder (p.processes hp serial)
  | .done, _ => ⟨rfl, .nil⟩
  | .stop _, _ => ⟨rfl, .nil⟩
  | .step s rest, ⟨hs, hr⟩ => by
    obtain ⟨hstop, hrest⟩ := Plan.forall₂_drives hh serial rest hr
    exact ⟨hstop, .cons (Step.drives hh serial s hs) hrest⟩

theorem Plan.drives (hh : h.Follow concurrent hp) (serial : Bool) (p : Plan)
    (ht : p.IsIn concurrent) :
    Process.Drives concurrent ((p.tasks h (Process.sideBySide concurrent serial)).run
      (Process.sideBySide concurrent serial)) (p.process hp serial) := by
  obtain ⟨hstop, htasks⟩ := Plan.forall₂_drives hh serial p ht
  have hrun := Tasks.appends_run htasks serial
  rw [hstop] at hrun
  unfold Process.Drives Plan.process
  simpa [Process.result, Process.errors] using hrun

end

theorem Cursor.follows_resolveSelections (hh : h.Follow concurrent hp) {c : Cursor}
    (hc : c.scope.concurrent = concurrent) {type : TypeDef}
    (ht : c.scope.schema.type? h.typeName = some type) (selections : SelectionSet) :
    Process.Follows concurrent
      ((Plan.ofSelectionSet ⟨type, h.objectName⟩ c selections).process hp c.serial)
      (c.resolveSelections h selections).toResolve := by
  rw [resolveSelections_of_type ht]
  have hmode : c.isConcurrent = Process.sideBySide concurrent c.serial := by
    rw [isConcurrent, hc, Process.sideBySide]
  have hplan := Plan.drives hh c.serial (Plan.ofSelectionSet ⟨type, h.objectName⟩ c selections)
    (Plan.isIn_ofSelectionSet hc selections)
  generalize Plan.ofSelectionSet ⟨type, h.objectName⟩ c selections = p at *
  have hresult : (p.process hp c.serial).result =
    .ofOutcome (Process.joined p.stop? (Process.results (p.processes hp c.serial))) := rfl
  unfold Process.Drives at hplan
  unfold Process.Follows
  rw [hresult, Ending.toOutcome_ofOutcome] at hplan
  rw [hresult, hmode]
  rcases hj : Process.joined p.stop? (Process.results (p.processes hp c.serial)) with v | o
  all_goals rw [hj] at hplan
  · exact hplan.bind_error.toResolve
  · have hvalue := (hplan.bind_ok (f := fun o => (pure (Outcome.toValue o) : Run σ Value))
      (.pure (Outcome.toValue o))).toResolve
    rwa [List.append_nil] at hvalue

end Plans

section Resolvers

variable {concurrent : Bool}

mutual

/-- Resolving what is selected on a value with pure resolvers follows its process. -/
theorem Instance.follows : ∀ (i : Instance) (c : Cursor), c.scope.concurrent = concurrent →
    (i.process c).Follows concurrent (i.toNode.resolve c : Resolve σ Value)
  | .mk typeName objectName field into whole, c, hc => by
    unfold Instance.process Instance.toNode Node.resolve
    rcases Substitute.follows whole c hc with ⟨hx, hp⟩ | ⟨x, p, hx, hp, hfollows⟩
    · rw [hx, hp]
      cases c.selections with
      | none => exact .raise _
      | some selections =>
        cases ht : c.scope.schema.type? typeName with
        | none =>
          have herror : c.scope.schema.requireType typeName = .error (.typeNotFound typeName) := by
            simp [Schema.requireType, ht]
          simp only [Cursor.resolveSelections, herror]
          exact (Appends.ofExcept _).bind_error.toResolve
        | some type =>
          have hok : c.scope.schema.requireType typeName = .ok type := by
            simp [Schema.requireType, ht]
          rw [hok]
          exact Cursor.follows_resolveSelections ⟨rfl,
            fun t htask => Answer.follows (field t.name t.arguments) t.cursor htask,
            fun condition c hcond => Substitute.follows (into condition) c hcond⟩ hc ht selections
    · rw [hx, hp]
      exact hfollows

theorem Substitute.follows : ∀ (i : Substitute) (c : Cursor), c.scope.concurrent = concurrent →
    ((i.toOverride : Override σ).run? c = none ∧ i.process? c = none) ∨
      ∃ x p, (i.toOverride : Override σ).run? c = some x ∧ i.process? c = some p ∧
        p.Follows concurrent x
  | .none, _, _ => .inl ⟨rfl, rfl⟩
  | .custom answer, c, hc => .inr ⟨_, _, rfl, rfl, Answer.follows answer c hc⟩

theorem Answer.follows : ∀ (a : Answer) (c : Cursor), c.scope.concurrent = concurrent →
    (a.process c).Follows concurrent ((a.toAction : Action σ).run c)
  | .value v, _, _ => .value v
  | .fail _, _, _ => .raise _
  | .resolve i next, c, hc =>
    (follows_resolvePresent i c hc).bind fun v => Answer.follows (next v) c hc
  | .resolveInto i next, c, hc => by
    have h := ((Instance.follows i c hc).orNull c c.location).bind fun v =>
      Answer.follows (next v) c hc
    unfold Answer.process Answer.toAction Action.run
    simpa only [bind_assoc, pure_bind] using h
  | .resolveList items next, c, hc => by
    cases hlist : c.currentType.element? with
    | none =>
      unfold Answer.process Answer.toAction Action.run
      rw [hlist]
      exact .raise _
    | some element =>
      unfold Answer.process Answer.toAction
      rw [hlist, Action.run_resolveList hlist]
      exact (follows_resolveItems element.isNonNull items 0 c hc).bind fun v =>
        Answer.follows (next v) c hc

theorem follows_resolvePresent : ∀ (i : Option Instance) (c : Cursor),
    c.scope.concurrent = concurrent →
    (processPresent i c).Follows concurrent (resolvePresent (toNode? i) c : Resolve σ Value)
  | none, _, _ => .raise _
  | some i, c, hc => Instance.follows i c hc

theorem follows_resolveItem : ∀ (i : Option Instance) (c : Cursor),
    c.scope.concurrent = concurrent →
    (processItem i c).Follows concurrent (resolveItem (toNode? i) c : Resolve σ Value)
  | none, _, _ => .value _
  | some i, c, hc => (Instance.follows i c hc).orNull c c.location

theorem follows_resolveItems (stopOnNull : Bool) :
    ∀ (items : List (Option Instance)) (n : Nat) (c : Cursor), c.scope.concurrent = concurrent →
      (processItems stopOnNull items n c).Follows concurrent
        (do return Value.ofItems? (← resolveItems stopOnNull (toNodes items) n c) :
          Resolve σ Value)
  | [], _, _, _ => .value _
  | i :: rest, n, c, hc => by
    have hrest := follows_resolveItems stopOnNull rest (n + 1) c hc
    unfold processItems toNodes
    rw [resolveItems_cons]
    refine (follows_resolveItem i (c.atIndex n) hc).bind fun v => ?_
    split
    · exact .value _
    · exact hrest.bind fun items => .value (v.consItem items)

end

end Resolvers

end GraphQL
