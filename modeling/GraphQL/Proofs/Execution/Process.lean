import GraphQL.Execution.Selections

/-! Execution as a process whose only effects are the errors it records. Sibling tasks fork off and
are joined again. Side by side, their steps come in any order; in turn, each task waits for the one
before it, and those after a task that decides the object never run. -/

namespace GraphQL

abbrev Ending := Except Raise Value

namespace Ending

def toOutcome : Ending → Except Violation Outcome
  | .ok (.object fields) => .ok (some fields)
  | .ok _ => .ok none
  | .error (.failure _) => .ok none
  | .error (.violation v) => .error v

def ofOutcome : Except Violation Outcome → Ending
  | .ok outcome => .ok outcome.toValue
  | .error v => .error (.violation v)

@[simp] theorem toOutcome_ofOutcome (x : Except Violation Outcome) : (ofOutcome x).toOutcome = x := by
  rcases x with _ | _ | _ <;> rfl

/-- `true` for an ending after which the tasks that follow still count. -/
def continues (r : Ending) : Bool :=
  match r.toOutcome with
  | .ok (some _) => true
  | _ => false

end Ending

/-- A process: how it ends, an error to record, or tasks and what is done with what they give. Tasks
may have to run in turn. Where planning stopped, what they give does not count. -/
inductive Process where
  | finish (r : Ending)
  | record (e : ExecutionError) (rest : Process)
  | fork (serial : Bool) (stop : Option Violation) (tasks : List Process)
      (next : Except Violation Outcome → Process)

namespace Process

def joined (stop : Option Violation) (endings : List Ending) : Except Violation Outcome :=
  match stop with
  | some v => .error v
  | none => Tasks.merge (endings.map Ending.toOutcome) []

/-- `true` for a fork whose tasks run side by side, if the request asks for that. -/
def sideBySide (concurrent serial : Bool) : Bool := concurrent && !serial

mutual

def result : Process → Ending
  | finish r => r
  | record _ rest => rest.result
  | fork _ stop tasks next => (next (joined stop (results tasks))).result

def results : List Process → List Ending
  | [] => []
  | p :: rest => p.result :: results rest

end

mutual

/-- The errors of a process in the order of the document. -/
def errors (concurrent : Bool) : Process → List ExecutionError
  | finish _ => []
  | record e rest => e :: rest.errors concurrent
  | fork serial stop tasks next =>
    (if sideBySide concurrent serial then errorsOfAll concurrent tasks
      else if stop.isSome then [] else errorsInTurn concurrent tasks) ++
      (next (joined stop (results tasks))).errors concurrent

def errorsOfAll (concurrent : Bool) : List Process → List ExecutionError
  | [] => []
  | p :: rest => p.errors concurrent ++ errorsOfAll concurrent rest

/-- The errors of tasks up to the first that decides. -/
def errorsInTurn (concurrent : Bool) : List Process → List ExecutionError
  | [] => []
  | p :: rest =>
    p.errors concurrent ++ if p.result.continues then errorsInTurn concurrent rest else []

end

mutual

/-- The errors of tasks that only run where tasks run side by side: those that follow a task which
decides, and all of them where planning stopped. -/
def skipped : Process → List ExecutionError
  | finish _ => []
  | record _ rest => rest.skipped
  | fork serial stop tasks next =>
    (if stop.isSome then if serial then [] else errorsOfAll true tasks
      else skippedInTurn serial tasks) ++ (next (joined stop (results tasks))).skipped

def skippedInTurn (serial : Bool) : List Process → List ExecutionError
  | [] => []
  | p :: rest => p.skipped ++
    if p.result.continues then skippedInTurn serial rest
    else if serial then [] else errorsOfAll true rest

end

open scoped List in
theorem perm_append_append {α : Type} {xs ys as bs cs ds : List α} (hx : xs.Perm (as ++ bs))
    (hy : ys.Perm (cs ++ ds)) : (xs ++ ys).Perm ((as ++ cs) ++ (bs ++ ds)) := by
  have hswap : (bs ++ (cs ++ ds)).Perm (cs ++ (bs ++ ds)) := List.perm_append_comm_assoc bs cs ds
  calc xs ++ ys
    _ ~ (as ++ bs) ++ (cs ++ ds) := hx.append hy
    _ = as ++ (bs ++ (cs ++ ds)) := by simp
    _ ~ as ++ (cs ++ (bs ++ ds)) := hswap.append_left as
    _ = (as ++ cs) ++ (bs ++ ds) := by simp

mutual

/-- What runs only side by side comes on top of what runs in any case. -/
theorem errors_perm : ∀ p : Process, (p.errors true).Perm (p.errors false ++ p.skipped)
  | finish _ => .refl _
  | record e rest => (errors_perm rest).cons e
  | fork serial stop tasks next => by
    have hnext := errors_perm (next (joined stop (results tasks)))
    refine perm_append_append ?_ hnext
    cases serial with
    | true =>
      cases stop with
      | some v => exact .refl _
      | none => exact errorsInTurn_perm tasks
    | false =>
      cases stop with
      | some v => exact .refl _
      | none => exact errorsOfAll_perm tasks

theorem errorsOfAll_perm : ∀ tasks : List Process,
    (errorsOfAll true tasks).Perm (errorsInTurn false tasks ++ skippedInTurn false tasks)
  | [] => .refl _
  | p :: rest => by
    unfold errorsInTurn skippedInTurn
    cases hc : p.result.continues with
    | true => exact perm_append_append (errors_perm p) (errorsOfAll_perm rest)
    | false => exact perm_append_append (errors_perm p) (.refl _)

theorem errorsInTurn_perm : ∀ tasks : List Process,
    (errorsInTurn true tasks).Perm (errorsInTurn false tasks ++ skippedInTurn true tasks)
  | [] => .refl _
  | p :: rest => by
    unfold errorsInTurn skippedInTurn
    cases hc : p.result.continues with
    | true => exact perm_append_append (errors_perm p) (errorsInTurn_perm rest)
    | false => exact perm_append_append (errors_perm p) (.refl _)

end

def IsFinished : Process → Prop
  | finish _ => True
  | _ => False

/-- A task in turn may move once all before it have given fields. -/
def Given (tasks : List Process) : Prop :=
  ∀ p ∈ tasks, p.IsFinished ∧ p.result.continues = true

/-- A step of a process and the errors it records. -/
inductive Step (concurrent : Bool) : Process → List ExecutionError → Process → Prop where
  | record (e : ExecutionError) (rest : Process) : Step concurrent (record e rest) [e] rest
  | task {serial : Bool} {stop : Option Violation} {before : List Process} {p p' : Process}
      {after : List Process} {next : Except Violation Outcome → Process}
      {es : List ExecutionError}
      (turn : sideBySide concurrent serial = true ∨ stop = none ∧ Given before)
      (h : Step concurrent p es p') :
      Step concurrent (fork serial stop (before ++ p :: after) next) es
        (fork serial stop (before ++ p' :: after) next)
  | join {serial : Bool} {stop : Option Violation} {tasks : List Process}
      {next : Except Violation Outcome → Process} (done : ∀ p ∈ tasks, p.IsFinished) :
      Step concurrent (fork serial stop tasks next) [] (next (joined stop (results tasks)))
  /-- In turn, nothing runs where planning stopped. -/
  | stop {serial : Bool} {v : Violation} {tasks : List Process}
      {next : Except Violation Outcome → Process}
      (inTurn : sideBySide concurrent serial = false) :
      Step concurrent (fork serial (some v) tasks next) [] (next (.error v))
  /-- In turn, a task that decides is the last one. -/
  | decide {serial : Bool} {before : List Process} {p : Process} {after : List Process}
      {next : Except Violation Outcome → Process}
      (inTurn : sideBySide concurrent serial = false) (given : Given before)
      (done : p.IsFinished) (decides : p.result.continues = false) :
      Step concurrent (fork serial none (before ++ p :: after) next) []
        (next (joined none (results (before ++ [p]))))

/-- Runs of a process to its end, with the errors in the order they are recorded. -/
inductive Runs (concurrent : Bool) : Process → List ExecutionError → Ending → Prop where
  | finish (r : Ending) : Runs concurrent (finish r) [] r
  | step {p p' : Process} {es es' : List ExecutionError} {r : Ending}
      (h : Step concurrent p es p') (rest : Runs concurrent p' es' r) :
      Runs concurrent p (es ++ es') r

section Steps

variable {concurrent : Bool}

theorem results_append (xs ys : List Process) : results (xs ++ ys) = results xs ++ results ys := by
  induction xs with
  | nil => rfl
  | cons p rest ih => simp only [List.cons_append, results, ih]

theorem errorsOfAll_append (xs ys : List Process) :
    errorsOfAll concurrent (xs ++ ys) = errorsOfAll concurrent xs ++ errorsOfAll concurrent ys := by
  induction xs with
  | nil => rfl
  | cons p rest ih => simp only [List.cons_append, errorsOfAll, ih, List.append_assoc]

theorem errors_of_isFinished {p : Process} (h : p.IsFinished) : p.errors concurrent = [] := by
  cases p with
  | finish r => rfl
  | record | fork => exact h.elim

theorem errorsOfAll_of_isFinished {tasks : List Process} (h : ∀ p ∈ tasks, p.IsFinished) :
    errorsOfAll concurrent tasks = [] := by
  induction tasks with
  | nil => rfl
  | cons p rest ih =>
    rw [errorsOfAll, errors_of_isFinished (h p (by simp)),
      ih fun q hq => h q (List.mem_cons_of_mem _ hq)]
    rfl

theorem errorsInTurn_of_isFinished {tasks : List Process} (h : ∀ p ∈ tasks, p.IsFinished) :
    errorsInTurn concurrent tasks = [] := by
  induction tasks with
  | nil => rfl
  | cons p rest ih =>
    rw [errorsInTurn, errors_of_isFinished (h p (by simp)),
      ih fun q hq => h q (List.mem_cons_of_mem _ hq)]
    simp

/-- Tasks that have given their fields leave those after them as they are. -/
theorem errorsInTurn_append {before : List Process} (h : Given before) (rest : List Process) :
    errorsInTurn concurrent (before ++ rest) = errorsInTurn concurrent rest := by
  induction before with
  | nil => rfl
  | cons p before ih =>
    obtain ⟨hfin, hcont⟩ := h p (by simp)
    rw [List.cons_append, errorsInTurn, errors_of_isFinished hfin, if_pos hcont,
      ih fun q hq => h q (List.mem_cons_of_mem _ hq)]
    rfl

theorem merge_append_of_decides {before : List Ending} (last : Ending) (after : List Ending)
    (hlast : last.continues = false) (merged : Keyed Value) :
    Tasks.merge ((before ++ last :: after).map Ending.toOutcome) merged =
      Tasks.merge ((before ++ [last]).map Ending.toOutcome) merged := by
  induction before generalizing merged with
  | nil =>
    unfold Ending.continues at hlast
    simp only [List.nil_append, List.map_cons, List.map_nil]
    rcases ho : last.toOutcome with v | _ | fields
    · rfl
    · rfl
    · simp [ho] at hlast
  | cons r before ih =>
    simp only [List.cons_append, List.map_cons]
    rcases r.toOutcome with v | _ | fields
    · rfl
    · rfl
    · exact ih _

theorem joined_append_of_decides (before : List Process) {p : Process} (after : List Process)
    (hp : p.result.continues = false) :
    joined none (results (before ++ p :: after)) = joined none (results (before ++ [p])) := by
  simp only [joined, results_append, results]
  exact merge_append_of_decides p.result (results after) hp []

open scoped List in
theorem perm_append_middle {α : Type} {es xs ys : List α} (h : es ++ xs ~ ys)
    (before after : List α) : es ++ (before ++ (xs ++ after)) ~ before ++ (ys ++ after) :=
  calc es ++ (before ++ (xs ++ after))
    _ ~ before ++ (es ++ (xs ++ after)) := List.perm_append_comm_assoc _ _ _
    _ = before ++ ((es ++ xs) ++ after) := by simp
    _ ~ before ++ (ys ++ after) := (h.append_right after).append_left before

/-- A step changes neither how a process ends nor which errors are recorded in all. -/
theorem Step.preserves {p p' : Process} {es : List ExecutionError} (h : Step concurrent p es p') :
    p'.result = p.result ∧ (es ++ p'.errors concurrent).Perm (p.errors concurrent) := by
  induction h with
  | record e rest => exact ⟨rfl, .refl _⟩
  | @task serial stop before p p' after next es turn h ih =>
    obtain ⟨hresult, hperm⟩ := ih
    have hresults : results (before ++ p' :: after) = results (before ++ p :: after) := by
      simp only [results_append, results, hresult]
    refine ⟨by simp only [result, hresults], ?_⟩
    simp only [errors, hresults]
    -- side by side any task may have moved, in turn only the first that has not finished
    cases hs : sideBySide concurrent serial with
    | true =>
      simp only [if_true, errorsOfAll_append, errorsOfAll, List.append_assoc]
      exact perm_append_middle hperm _ _
    | false =>
      obtain ⟨rfl, hgiven⟩ := turn.resolve_left (by simp [hs])
      simp only [Bool.false_eq_true, if_false, Option.isSome_none, errorsInTurn_append hgiven,
        errorsInTurn, hresult, List.append_assoc]
      exact perm_append_middle hperm [] _
  | @join serial stop tasks next done =>
    refine ⟨rfl, ?_⟩
    simp [errors, errorsOfAll_of_isFinished done, errorsInTurn_of_isFinished done]
  | @stop serial v tasks next inTurn =>
    refine ⟨rfl, ?_⟩
    simp [errors, inTurn, joined]
  | @decide serial before p after next inTurn given done decides =>
    have hjoined := joined_append_of_decides before after decides
    refine ⟨by simp only [result, hjoined], ?_⟩
    simp [errors, inTurn, hjoined, errorsInTurn_append given, errorsInTurn,
      errors_of_isFinished done, decides]

theorem Runs.preserves {p : Process} {es : List ExecutionError} {r : Ending}
    (h : Runs concurrent p es r) : r = p.result ∧ es.Perm (p.errors concurrent) := by
  induction h with
  | finish r => exact ⟨rfl, .refl _⟩
  | step h _ ih =>
    obtain ⟨hresult, hperm⟩ := h.preserves
    exact ⟨ih.1.trans hresult, (ih.2.append_left _).trans hperm⟩

/-- A run of one task inside a fork. -/
theorem Runs.inFork {serial : Bool} {stop : Option Violation} {before after : List Process}
    {next : Except Violation Outcome → Process} {p : Process} {es es' : List ExecutionError}
    {r r' : Ending} (turn : sideBySide concurrent serial = true ∨ stop = none ∧ Given before)
    (hp : Runs concurrent p es r)
    (h : Runs concurrent (fork serial stop (before ++ .finish r :: after) next) es' r') :
    Runs concurrent (fork serial stop (before ++ p :: after) next) (es ++ es') r' := by
  induction hp with
  | finish r => exact h
  | step hstep _ ih =>
    rw [List.append_assoc]
    exact .step (.task turn hstep) (ih h)

theorem results_finish (before after : List Process) (p : Process) :
    results (before ++ finish p.result :: after) = results (before ++ p :: after) := by
  simp only [results_append, results, result]

mutual

/-- A process can run in the order of the document. -/
theorem runs_errors : ∀ p : Process, Runs concurrent p (p.errors concurrent) p.result
  | finish r => .finish r
  | record e rest => .step (.record e rest) (runs_errors rest)
  | fork serial stop tasks next => by
    have hnext := runs_errors (next (joined stop (results tasks)))
    unfold errors result
    cases hs : sideBySide concurrent serial with
    | true => exact runs_errorsOfAll tasks [] hs (by simp) hnext
    | false =>
      cases stop with
      | some v => exact .step (.stop hs) hnext
      | none => exact runs_errorsInTurn tasks [] hs (by simp [Given]) hnext

theorem runs_errorsOfAll {serial : Bool} {stop : Option Violation}
    {next : Except Violation Outcome → Process} {es : List ExecutionError} {r : Ending} :
    ∀ (tasks before : List Process), sideBySide concurrent serial = true →
      (∀ p ∈ before, p.IsFinished) →
      Runs concurrent (next (joined stop (results (before ++ tasks)))) es r →
      Runs concurrent (fork serial stop (before ++ tasks) next)
        (errorsOfAll concurrent tasks ++ es) r
  | [], before, _, hb, h => .step (.join (by simpa using hb)) h
  | p :: rest, before, hs, hb, h => by
    rw [errorsOfAll, List.append_assoc]
    refine (runs_errors p).inFork (.inl hs) ?_
    have hb' : ∀ q ∈ before ++ [finish p.result], q.IsFinished := by
      intro q hq
      rcases List.mem_append.mp hq with hq | hq
      · exact hb q hq
      · rw [List.mem_singleton.mp hq]
        trivial
    rw [List.append_cons]
    refine runs_errorsOfAll rest _ hs hb' ?_
    rwa [← List.append_cons, results_finish]

theorem runs_errorsInTurn {serial : Bool} {next : Except Violation Outcome → Process}
    {es : List ExecutionError} {r : Ending} :
    ∀ (tasks before : List Process), sideBySide concurrent serial = false → Given before →
      Runs concurrent (next (joined none (results (before ++ tasks)))) es r →
      Runs concurrent (fork serial none (before ++ tasks) next)
        (errorsInTurn concurrent tasks ++ es) r
  | [], before, _, hb, h => .step (.join (by simpa using fun q hq => (hb q hq).1)) h
  | p :: rest, before, hs, hb, h => by
    rw [errorsInTurn, List.append_assoc]
    refine (runs_errors p).inFork (.inr ⟨rfl, hb⟩) ?_
    cases hc : p.result.continues with
    | true =>
      have hb' : Given (before ++ [finish p.result]) := by
        intro q hq
        rcases List.mem_append.mp hq with hq | hq
        · exact hb q hq
        · rw [List.mem_singleton.mp hq]
          exact ⟨trivial, hc⟩
      rw [if_pos rfl, List.append_cons]
      refine runs_errorsInTurn rest _ hs hb' ?_
      rwa [← List.append_cons, results_finish]
    | false =>
      refine .step (.decide hs hb trivial hc) ?_
      rwa [results_finish, ← joined_append_of_decides before rest hc]

end

end Steps

end Process

end GraphQL
