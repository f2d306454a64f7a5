import GraphQL.Proofs.Execution.Concurrency

/-! Schedules of a process: orders in which the tasks that are under way take their steps. None of
them gets stuck or goes on for ever, and all of them come to the same response. -/

namespace GraphQL

namespace Process

variable {concurrent : Bool}

mutual

/-- The most steps that a process can take. -/
def rank : Process → Nat
  | finish _ => 0
  | record _ rest => rest.rank + 1
  | fork _ stop tasks next => rankOfAll tasks + (next (joined stop (results tasks))).rank + 1

def rankOfAll : List Process → Nat
  | [] => 0
  | p :: rest => p.rank + rankOfAll rest

end

theorem rankOfAll_append (xs ys : List Process) :
    rankOfAll (xs ++ ys) = rankOfAll xs + rankOfAll ys := by
  induction xs with
  | nil => simp [rankOfAll]
  | cons p rest ih =>
    simp only [List.cons_append, rankOfAll, ih]
    omega

theorem Step.rank_lt {p p' : Process} {es : List ExecutionError} (h : Step concurrent p es p') :
    p'.rank < p.rank := by
  induction h with
  | record e rest =>
    simp only [rank]
    omega
  | @task serial stop before p p' after next es _ h ih =>
    -- what the tasks give does not change, so neither does what comes after them
    have hresult := h.preserves.1
    have hresults : results (before ++ p' :: after) = results (before ++ p :: after) := by
      simp only [results_append, results, hresult]
    simp only [rank, hresults, rankOfAll_append, rankOfAll]
    omega
  | @join serial stop tasks next _ =>
    simp only [rank]
    omega
  | @stop serial v tasks next _ =>
    simp only [rank, joined]
    omega
  | @decide serial before p after next _ _ _ decides =>
    have hjoined := joined_append_of_decides before after decides
    simp only [rank, hjoined]
    omega

/-- A schedule up to some step: how many steps it has taken, the errors it has recorded, and what is
left of the process. -/
inductive Reaches (concurrent : Bool) :
    Nat → Process → List ExecutionError → Process → Prop where
  | here (p : Process) : Reaches concurrent 0 p [] p
  | step {n : Nat} {p p' p'' : Process} {es es' : List ExecutionError}
      (h : Step concurrent p es p') (rest : Reaches concurrent n p' es' p'') :
      Reaches concurrent (n + 1) p (es ++ es') p''

namespace Reaches

variable {n : Nat} {p p' : Process} {es : List ExecutionError}

theorem le_rank (h : Reaches concurrent n p es p') : n ≤ p.rank := by
  induction h with
  | here p => exact Nat.zero_le _
  | step h _ ih =>
    have hlt := h.rank_lt
    omega

theorem runs (h : Reaches concurrent n p es p') {es' : List ExecutionError} {r : Ending}
    (hrest : Runs concurrent p' es' r) : Runs concurrent p (es ++ es') r := by
  induction h with
  | here p => exact hrest
  | step h _ ih =>
    rw [List.append_assoc]
    exact .step h (ih hrest)

/-- Wherever a schedule has come to, it can be finished. -/
theorem exists_runs (h : Reaches concurrent n p es p') :
    ∃ more r, Runs concurrent p (es ++ more) r :=
  ⟨_, _, h.runs (runs_errors p')⟩

end Reaches

/-- Of two tasks side by side, either may run before the other. -/
theorem Runs.pair {p q : Process} {es es' es'' : List ExecutionError} {a b r : Ending}
    {next : Except Violation Outcome → Process} (hp : Runs true p es a) (hq : Runs true q es' b)
    (hnext : Runs true (next (joined none [a, b])) es'' r) :
    Runs true (fork false none [p, q] next) (es ++ (es' ++ es'')) r ∧
      Runs true (fork false none [p, q] next) (es' ++ (es ++ es'')) r := by
  have hdone : Runs true (fork false none [.finish a, .finish b] next) es'' r :=
    .step (.join (by simp [IsFinished])) hnext
  have hsecond : Runs true (fork false none ([.finish a] ++ q :: []) next) (es' ++ es'') r :=
    hq.inFork (.inl rfl) hdone
  have hfirst : Runs true (fork false none ([] ++ p :: [.finish b]) next) (es ++ es'') r :=
    hp.inFork (.inl rfl) hdone
  have hlater : Runs true (fork false none ([p] ++ q :: []) next) (es' ++ (es ++ es'')) r :=
    hq.inFork (.inl rfl) hfirst
  have hsooner : Runs true (fork false none ([] ++ p :: [q]) next) (es ++ (es' ++ es'')) r :=
    hp.inFork (.inl rfl) hsecond
  exact ⟨hsooner, hlater⟩

end Process

/-- What does not depend on how errors in one place and with one message come: the data with the
order of its keys, and of each error the place, the path and the message. -/
def Output.outline (o : Output) : Value × List (Position × ResponsePath × Text) :=
  (o.data, o.errors.map ExecutionError.key)

namespace Ending

variable {errors errors' : List ExecutionError}

theorem outline_toOutput_of_perm (r : Ending) (h : errors'.Perm errors) :
    (r.toOutput errors').map Output.outline = (r.toOutput errors).map Output.outline := by
  have hkeys := ExecutionError.map_key_sort_of_perm h
  rcases r with (e | v) | data
  · simp only [toOutput, Except.map, Output.outline, hkeys]
  · rfl
  · simp only [toOutput, Except.map, Output.outline, hkeys]

theorem toOutput_of_perm (r : Ending) (h : errors'.Perm errors)
    (hd : ExecutionError.Distinguished errors) : r.toOutput errors' = r.toOutput errors := by
  have hsort := ExecutionError.sort_eq_of_perm h.symm hd
  rcases r with (e | v) | data
  · simp only [toOutput, hsort]
  · rfl
  · simp only [toOutput, hsort]

end Ending

namespace Service

variable {σ : Type} {service : Service σ} {op : Operation} {type : TypeDef} {i : Instance}

/-- Executing an operation on a value with pure resolvers, its tasks side by side. The steps of a
schedule are bounded beforehand, it can be finished from wherever it has come to, and the engine's
own response is that of a schedule. Any two schedules record the same errors and give the same data,
and they give the same response if no two of the errors differ in extensions only. -/
theorem executeOperation_of_schedules (hroot : service.root op = .ok (type, i.toNode))
    (doc : Document) (vars : Variables) (context : Option Text) (session : Session σ) :
    (∀ n errors p,
      (op.process service.schema doc ⟨vars, context, true⟩ type i).Reaches true n errors p →
        n ≤ (op.process service.schema doc ⟨vars, context, true⟩ type i).rank ∧
        ∃ more r,
          (op.process service.schema doc ⟨vars, context, true⟩ type i).Runs true
            (errors ++ more) r) ∧
    (∃ errors r,
      (op.process service.schema doc ⟨vars, context, true⟩ type i).Runs true errors r ∧
        ((service.executeOperation doc op ⟨vars, context, true⟩).run.run session).1 =
          r.toOutput errors) ∧
    ∀ errors r errors' r',
      (op.process service.schema doc ⟨vars, context, true⟩ type i).Runs true errors r →
      (op.process service.schema doc ⟨vars, context, true⟩ type i).Runs true errors' r' →
        errors'.Perm errors ∧
        (r'.toOutput errors').map Output.outline = (r.toOutput errors).map Output.outline ∧
        (ExecutionError.Distinguished errors → r'.toOutput errors' = r.toOutput errors) := by
  have hengine := executeOperation_eq_toOutput hroot doc ⟨vars, context, true⟩ session
  generalize op.process service.schema doc ⟨vars, context, true⟩ type i = p at *
  refine ⟨fun n errors q hreach => ⟨hreach.le_rank, hreach.exists_runs⟩,
    ⟨_, _, Process.runs_errors p, hengine⟩, fun errors r errors' r' hrun hrun' => ?_⟩
  obtain ⟨rfl, hperm⟩ := hrun.preserves
  obtain ⟨rfl, hperm'⟩ := hrun'.preserves
  have hsame : errors'.Perm errors := hperm'.trans hperm.symm
  exact ⟨hsame, Ending.outline_toOutput_of_perm _ hsame, Ending.toOutput_of_perm _ hsame⟩

end Service

namespace Siblings

/-- Both fields fail. Side by side, either may be the first to record its error. -/
theorem executeOperation_of_orders :
    service.root operation = .ok (.object query, root.toNode) ∧ ∃ ea eb r, ea ≠ eb ∧
      (operation.process schema [.operation operation] ⟨[], none, true⟩ (.object query) root).Runs
        true [ea, eb] r ∧
      (operation.process schema [.operation operation] ⟨[], none, true⟩ (.object query) root).Runs
        true [eb, ea] r ∧
      r.toOutput [eb, ea] = r.toOutput [ea, eb] := by
  have hroot : service.root operation = .ok (.object query, root.toNode) := rfl
  obtain ⟨ea, eb, ra, rb, next, r, hprocess, hnext, hkey⟩ : ∃ ea eb ra rb next r,
      operation.process service.schema [.operation operation] ⟨[], none, true⟩ (.object query)
          root =
        .fork false none [.record ea (.finish ra), .record eb (.finish rb)] next ∧
      next (Process.joined none [ra, rb]) = .finish r ∧ ea.key ≠ eb.key :=
    ⟨_, _, _, _, _, _, rfl, rfl, by decide⟩
  have hjoined : (next (Process.joined none [ra, rb])).Runs true [] r := by
    rw [hnext]
    exact .finish r
  obtain ⟨hfirst, hlast⟩ := Process.Runs.pair (.step (.record ea _) (.finish ra))
    (.step (.record eb _) (.finish rb)) hjoined
  rw [← hprocess] at hfirst hlast
  have hd : ExecutionError.Distinguished [ea, eb] := by
    simp [ExecutionError.Distinguished, hkey, hkey.symm]
  obtain ⟨-, -, hagree⟩ :=
    Service.executeOperation_of_schedules hroot [.operation operation] [] none ⟨[], ()⟩
  have hsame := (hagree _ _ _ _ hfirst hlast).2.2 hd
  exact ⟨hroot, ea, eb, r, fun h => hkey (congrArg _ h), hfirst, hlast, hsame⟩

end Siblings

end GraphQL
