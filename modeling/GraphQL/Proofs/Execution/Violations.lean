import Mathlib.Data.List.Chain
import GraphQL.Proofs.Execution.InTurn
import GraphQL.Proofs.Execution.Modes
import GraphQL.Proofs.Execution.Recording

/-! What becomes of a violation on its way out of an execution, for resolvers of any kind and under
every schedule. It is never recorded. In turn it ends the request. Side by side, all tasks of a fork
run, but what they give only counts up to the first that decides: a violation is lost where a task
before it has nulled the object. -/

namespace GraphQL

variable {σ : Type}

/-- From one state to another, errors of a kind are recorded, and none is taken back. -/
def Effects.Extends (P : FieldError → Prop) (s s' : Effects σ) : Prop :=
  ∃ new, s'.errors = s.errors ++ new ∧ ∀ e ∈ new, P e.error

namespace Effects.Extends

variable {P : FieldError → Prop} {s s' s'' : Effects σ}

theorem of_eq (h : s'.errors = s.errors) : Extends P s s' := Adds.of_eq h

theorem refl (s : Effects σ) : Extends P s s := of_eq rfl

theorem trans (h : Extends P s s') (h' : Extends P s' s'') : Extends P s s'' := Adds.trans h h'

theorem record (s : Effects σ) (c : Cursor) (location : Position) {e : FieldError} (he : P e) :
    Extends P s (s.record c location e) := Adds.record s c location he

end Effects.Extends

namespace Job

/-- A job that leaves calls and then ends in a violation. -/
inductive Unwinds (v : Violation) : Job σ → Prop where
  | finish : Unwinds v (.finish (.error (.violation v)))
  | leave (call : Call) {next : Job σ} (h : Unwinds v next) : Unwinds v (.mark (.leave call) next)

/-- A violation has been raised in a job and is on its way out of it. -/
inductive Raising (v : Violation) : Job σ → Prop where
  | unwind {p : Job σ} (h : Unwinds v p) : Raising v p
  /-- Planning stopped. -/
  | stop (concurrent : Bool) (tasks : List (Job σ)) (next : Except Violation Outcome → Job σ) :
      Raising v (fork concurrent (some v) tasks next)
  | side {stop : Option Violation} {tasks : List (Job σ)} {p : Job σ}
      {next : Except Violation Outcome → Job σ} (mem : p ∈ tasks) (h : Raising v p) :
      Raising v (fork true stop tasks next)
  | turn {given : List Ending} {p : Job σ} {after : List (Job σ)}
      {next : Except Violation Outcome → Job σ} (continues : ∀ r ∈ given, r.continues = true)
      (h : Raising v p) : Raising v (fork false none (given.map finish ++ p :: after) next)

/-- Side by side, all tasks of a fork have ended: one has nulled the object, and another, which comes
after it in the document, has broken off. -/
inductive Overruling : Job σ → Prop where
  | fork {before between after : List Ending} {r : Ending} {v : Violation}
      {next : Except Violation Outcome → Job σ} (continues : ∀ r ∈ before, r.continues = true)
      (nulls : r.toOutcome = .ok none) :
      Overruling (fork true none
        ((before ++ r :: between ++ .error (.violation v) :: after).map finish) next)
  | side {stop : Option Violation} {tasks : List (Job σ)} {p : Job σ}
      {next : Except Violation Outcome → Job σ} (mem : p ∈ tasks) (h : Overruling p) :
      Overruling (Job.fork true stop tasks next)
  | turn {given : List Ending} {p : Job σ} {after : List (Job σ)}
      {next : Except Violation Outcome → Job σ} (continues : ∀ r ∈ given, r.continues = true)
      (h : Overruling p) : Overruling (Job.fork false none (given.map finish ++ p :: after) next)

/-- A job that passes on the violations that come out of its forks, and records only failures of a
kind. Tasks run side by side only where the request asks for that. -/
inductive Relays (concurrent : Bool) (P : FieldError → Prop) : Job σ → Prop where
  | finish {r : Ending} (h : ∀ e, r = .error (.failure e) → P e) : Relays concurrent P (.finish r)
  | act {f : Effects σ → Effects σ} {next : Effects σ → Job σ}
      (h : ∀ s : Effects σ, s.Extends P (f s)) (hnext : ∀ s, Relays concurrent P (next s)) :
      Relays concurrent P (.act f next)
  | mark (m : Mark) {next : Job σ} (h : Relays concurrent P next) :
      Relays concurrent P (.mark m next)
  | fork {side : Bool} {stop : Option Violation} {tasks : List (Job σ)}
      {next : Except Violation Outcome → Job σ} (asked : side = true → concurrent = true)
      (htasks : ∀ p ∈ tasks, Relays concurrent P p) (hnext : ∀ x, Relays concurrent P (next x))
      (unwinds : ∀ v, Unwinds v (next (.error v))) :
      Relays concurrent P (.fork side stop tasks next)

theorem Unwinds.andThen {v : Violation} {p : Job σ} (h : Unwinds v p) {k : Ending → Job σ}
    (hk : Unwinds v (k (.error (.violation v)))) : Unwinds v (p.andThen k) := by
  induction h with
  | finish => exact hk
  | leave call _ ih => exact .leave call ih

theorem Raising.of_finish {v : Violation} {r : Ending} (h : Raising v (finish r : Job σ)) :
    r = .error (.violation v) := by
  cases h with
  | unwind h =>
    cases h
    rfl

section Relays

variable {concurrent : Bool} {P : FieldError → Prop} {p : Job σ}

namespace Relays

theorem value (v : Value) : Relays concurrent P (Job.finish (.ok v) : Job σ) := .finish nofun

theorem violate (v : Violation) :
    Relays concurrent P (Job.finish (.error (.violation v)) : Job σ) := .finish nofun

theorem ofOutcome (x : Except Violation Outcome) :
    Relays concurrent P (Job.finish (.ofOutcome x) : Job σ) := by
  cases x with
  | ok outcome => exact value _
  | error v => exact violate v

theorem andThen (hp : Relays concurrent P p) {k : Ending → Job σ}
    (hk : ∀ r, (∀ e, r = .error (.failure e) → P e) → Relays concurrent P (k r))
    (unwinds : ∀ v, Unwinds v (k (.error (.violation v)))) :
    Relays concurrent P (p.andThen k) := by
  induction hp with
  | finish h => exact hk _ h
  | act h _ ih => exact .act h ih
  | mark m _ ih => exact .mark m ih
  | fork asked htasks _ hunwinds _ ih =>
    exact .fork asked htasks ih fun v => (hunwinds v).andThen (unwinds v)

theorem bind (hp : Relays concurrent P p) {k : Value → Job σ}
    (hk : ∀ v, Relays concurrent P (k v)) : Relays concurrent P (p.bind k) := by
  refine hp.andThen (fun r hr => ?_) fun _ => .finish
  cases r with
  | ok v => exact hk v
  | error r => exact .finish hr

theorem captured (hp : Relays concurrent P p) (c : Cursor) (location : Position) :
    Relays concurrent P (p.captured c location) := by
  refine hp.andThen (fun r hr => ?_) fun _ => .finish
  rcases r with (e | v) | v
  · exact .act (fun s => .record s c location (hr e rfl)) fun _ => value .null
  · exact violate v
  · exact value v

theorem during (hp : Relays concurrent P p) (call : Call) : Relays concurrent P (p.during call) :=
  .mark _ (hp.andThen (fun _ hr => .mark _ (.finish hr)) fun _ => .leave call .finish)

/-- The job of a fork that only joins what its tasks give. -/
theorem joins {side : Bool} (asked : side = true → concurrent = true) (stop : Option Violation)
    {tasks : List (Job σ)} (htasks : ∀ p ∈ tasks, Relays concurrent P p) :
    Relays concurrent P (Job.fork side stop tasks fun x => .finish (.ofOutcome x)) :=
  .fork asked htasks ofOutcome fun _ => .finish

end Relays

/-- A task of a fork may be put in place of another. -/
theorem Relays.replace {side : Bool} {stop : Option Violation} {before after : List (Job σ)}
    {next : Except Violation Outcome → Job σ}
    (h : Relays concurrent P (Job.fork side stop (before ++ p :: after) next)) :
    Relays concurrent P p ∧ ∀ p', Relays concurrent P p' →
      Relays concurrent P (Job.fork side stop (before ++ p' :: after) next) := by
  cases h with
  | fork asked htasks hnext unwinds =>
    obtain ⟨hbefore, htasks⟩ := List.forall_mem_append.mp htasks
    obtain ⟨hp, hafter⟩ := List.forall_mem_cons.mp htasks
    refine ⟨hp, fun p' hp' => .fork asked ?_ hnext unwinds⟩
    exact List.forall_mem_append.mpr ⟨hbefore, List.forall_mem_cons.mpr ⟨hp', hafter⟩⟩

theorem Relays.step {p' : Job σ} {s s' : Effects σ} {ms : List Mark} (h : Step p s ms p' s') :
    Relays concurrent P p → Relays concurrent P p' ∧ s.Extends P s' := by
  induction h with
  | act f next s =>
    intro hp
    cases hp with
    | act hf hnext => exact ⟨hnext _, hf s⟩
  | mark m next s =>
    intro hp
    cases hp with
    | mark _ h => exact ⟨h, .refl s⟩
  | side _ ih | turn _ _ ih =>
    intro hp
    obtain ⟨htask, hreplace⟩ := hp.replace
    obtain ⟨htask', hextends⟩ := ih htask
    exact ⟨hreplace _ htask', hextends⟩
  | join | stop | decide =>
    intro hp
    cases hp with
    | fork _ _ hnext => exact ⟨hnext _, .refl _⟩

end Relays

section Joining

variable {v : Violation}

theorem merge_of_violation {before : List Ending} (continues : ∀ r ∈ before, r.continues = true)
    (after : List Ending) (merged : Keyed Value) :
    Tasks.merge ((before ++ .error (.violation v) :: after).map Ending.toOutcome) merged =
      .error v := by
  induction before generalizing merged with
  | nil => rfl
  | cons r before ih =>
    obtain ⟨hr, hbefore⟩ := List.forall_mem_cons.mp continues
    obtain ⟨fields, hfields⟩ := Ending.exists_of_continues hr
    rw [List.cons_append, List.map_cons, hfields]
    exact ih hbefore _

/-- Where a violation is among what tasks give and does not come out of their fork, a task before it
has nulled the object. -/
theorem exists_nulls_of_merge {endings : List Ending} (hmem : .error (.violation v) ∈ endings)
    {merged : Keyed Value} {outcome : Outcome}
    (h : Tasks.merge (endings.map Ending.toOutcome) merged = .ok outcome) :
    ∃ before r between after, endings = before ++ r :: between ++ .error (.violation v) :: after ∧
      (∀ r ∈ before, r.continues = true) ∧ r.toOutcome = .ok none := by
  induction endings generalizing merged with
  | nil => cases hmem
  | cons q rest ih =>
    have hrest (hq : ∃ outcome, q.toOutcome = .ok outcome) : .error (.violation v) ∈ rest := by
      rcases List.mem_cons.mp hmem with rfl | hrest
      · cases hq.choose_spec
      · exact hrest
    rw [List.map_cons] at h
    rcases hq : q.toOutcome with w | _ | fields
    · rw [hq] at h
      cases h
    · obtain ⟨between, after, rfl⟩ := List.append_of_mem (hrest ⟨none, hq⟩)
      exact ⟨[], q, between, after, rfl, nofun, hq⟩
    · rw [hq] at h
      obtain ⟨before, r, between, after, rfl, continues, nulls⟩ := ih (hrest ⟨_, hq⟩) h
      have hgoes : q.continues = true := by simp [Ending.continues, hq]
      exact ⟨q :: before, r, between, after, rfl, List.forall_mem_cons.mpr ⟨hgoes, continues⟩, nulls⟩

end Joining

/-- A job that is not done, or whose ending decides. -/
def Blocks (p : Job σ) : Prop := ∀ r, p = finish r → r.continues = false

theorem Raising.blocks {v : Violation} {p : Job σ} (h : Raising v p) : Blocks p := by
  rintro r rfl
  rw [h.of_finish]
  rfl

theorem Step.blocks {p p' : Job σ} {s s' : Effects σ} {ms : List Mark} (h : Step p s ms p' s') :
    Blocks p := by
  rintro r rfl
  cases h

/-- In turn, the task that blocks those after it is the first that does not continue. -/
theorem blocked_unique {given given' : List Ending} {p p' : Job σ} {after after' : List (Job σ)}
    (continues : ∀ r ∈ given, r.continues = true) (continues' : ∀ r ∈ given', r.continues = true)
    (hp : Blocks p) (hp' : Blocks p')
    (h : given.map finish ++ p :: after = given'.map finish ++ p' :: after') :
    given = given' ∧ p = p' ∧ after = after' := by
  induction given generalizing given' with
  | nil =>
    cases given' with
    | nil =>
      obtain ⟨rfl, rfl⟩ := List.cons.inj h
      exact ⟨rfl, rfl, rfl⟩
    | cons r' given' =>
      have hdecides := hp r' (List.cons.inj h).1
      simp [continues' r' List.mem_cons_self] at hdecides
  | cons r given ih =>
    cases given' with
    | nil =>
      have hdecides := hp' r (List.cons.inj h).1.symm
      simp [continues r List.mem_cons_self] at hdecides
    | cons r' given' =>
      obtain ⟨hr, hrest⟩ := List.cons.inj h
      obtain ⟨rfl, rfl, rfl⟩ := ih (List.forall_mem_cons.mp continues).2
        (List.forall_mem_cons.mp continues').2 hrest
      exact ⟨by rw [Job.finish.inj hr], rfl, rfl⟩

/-- After a step, a violation is still on its way, unless tasks ran side by side: then it may have
been overruled, or another one may have come out of its fork. -/
theorem Raising.step {concurrent : Bool} {P : FieldError → Prop} {v : Violation} {p p' : Job σ}
    {s s' : Effects σ} {ms : List Mark} (h : Raising v p) (hp : Relays concurrent P p)
    (hstep : Step p s ms p' s') :
    Raising v p' ∨ concurrent = true ∧ (Overruling p ∨ ∃ w, Raising w p') := by
  induction h generalizing p' s s' ms with
  | unwind h =>
    cases h with
    | finish => cases hstep
    | leave call h =>
      cases hstep
      exact .inl (.unwind h)
  | stop side tasks next =>
    cases hp with
    | fork _ _ _ unwinds =>
      cases hstep with
      | side => exact .inl (.stop _ _ _)
      | join | stop => exact .inl (.unwind (unwinds v))
  | @side stop tasks p next mem h ih =>
    cases hp with
    | fork asked htasks hnext unwinds =>
      have hconcurrent := asked rfl
      cases hstep with
      | @side _ before after q q' _ _ _ _ hq =>
        rcases List.mem_append.mp mem with hmem | hmem
        · exact .inl (.side (List.mem_append_left _ hmem) h)
        rcases List.mem_cons.mp hmem with rfl | hmem
        · have hmem' : q' ∈ before ++ q' :: after := by simp
          rcases ih (htasks p mem) hq with hp' | ⟨-, hp | ⟨w, hp'⟩⟩
          · exact .inl (.side hmem' hp')
          · exact .inr ⟨hconcurrent, .inl (.side mem hp)⟩
          · exact .inr ⟨hconcurrent, .inr ⟨w, .side hmem' hp'⟩⟩
        · exact .inl (.side (by simp [hmem]) h)
      | join _ _ endings =>
        obtain ⟨r, hr, rfl⟩ := List.mem_map.mp mem
        obtain rfl := h.of_finish
        cases stop with
        | some w => exact .inr ⟨hconcurrent, .inr ⟨w, .unwind (unwinds w)⟩⟩
        | none =>
          cases hjoined : Process.joined none endings with
          | error w => exact .inr ⟨hconcurrent, .inr ⟨w, .unwind (unwinds w)⟩⟩
          | ok outcome =>
            obtain ⟨before, r, between, after, rfl, continues, nulls⟩ :=
              exists_nulls_of_merge hr hjoined
            exact .inr ⟨hconcurrent, .inl (.fork continues nulls)⟩
  | @turn given p after next continues h ih =>
    have hreplace := hp.replace
    cases hp with
    | fork _ _ _ unwinds =>
      generalize htasks : given.map finish ++ p :: after = tasks at hstep
      cases hstep with
      | turn continues' hq =>
        obtain ⟨rfl, rfl, rfl⟩ := blocked_unique continues continues' h.blocks hq.blocks htasks
        rcases ih hreplace.1 hq with hp' | ⟨hconcurrent, hp | ⟨w, hp'⟩⟩
        · exact .inl (.turn continues hp')
        · exact .inr ⟨hconcurrent, .inl (.turn continues hp)⟩
        · exact .inr ⟨hconcurrent, .inr ⟨w, .turn continues hp'⟩⟩
      | join _ _ endings =>
        obtain ⟨given', rest, rfl, hgiven, hrest⟩ := List.map_eq_append_iff.mp htasks.symm
        obtain rfl := List.map_injective_iff.mpr (fun _ _ => Job.finish.inj) hgiven
        obtain ⟨r, after, rfl, rfl, -⟩ := List.map_eq_cons_iff.mp hrest
        obtain rfl := h.of_finish
        have hjoined : Process.joined none (given' ++ .error (.violation v) :: after) = .error v :=
          merge_of_violation continues after []
        rw [hjoined]
        exact .inl (.unwind (unwinds v))
      | @decide given' r after' _ _ continues' decides =>
        have hblocks : Blocks (finish r : Job σ) := by
          rintro _ ⟨⟩
          exact decides
        obtain ⟨rfl, rfl, -⟩ := blocked_unique continues continues' h.blocks hblocks htasks
        obtain rfl := h.of_finish
        have hjoined : Process.joined none (given ++ [.error (.violation v)]) = .error v :=
          merge_of_violation continues [] []
        rw [hjoined]
        exact .inl (.unwind (unwinds v))

/-- A run, as the jobs and the states on its way. -/
def IsRun (path : List (Job σ × Effects σ)) : Prop :=
  path.IsChain fun a b => ∃ ms, Step a.1 a.2 ms b.1 b.2

theorem Runs.exists_isRun {p : Job σ} {s s' : Effects σ} {ms : List Mark} {r : Ending}
    (h : Runs p s ms r s') :
    ∃ path, IsRun ((p, s) :: path) ∧ ((p, s) :: path).getLast? = some (Job.finish r, s') := by
  induction h with
  | finish r s => exact ⟨[], .singleton _, rfl⟩
  | @step p p' s s' s'' ms ms' r h _ ih =>
    obtain ⟨path, hrun, hlast⟩ := ih
    exact ⟨(p', s') :: path, .cons_cons ⟨ms, h⟩ hrun, by rwa [List.getLast?_cons_cons]⟩

/-- A run of a task goes before what its fork does when the task has ended. -/
theorem Runs.isRun_side {p : Job σ} {s s' : Effects σ} {ms : List Mark} {r : Ending}
    (h : Runs p s ms r s') {stop : Option Violation} (before after : List (Job σ))
    {next : Except Violation Outcome → Job σ} {path : List (Job σ × Effects σ)}
    (hrest : IsRun ((fork true stop (before ++ .finish r :: after) next, s') :: path)) :
    ∃ path', IsRun ((fork true stop (before ++ p :: after) next, s) :: path') ∧
      ((fork true stop (before ++ .finish r :: after) next, s') :: path) <:+
        (fork true stop (before ++ p :: after) next, s) :: path' := by
  induction h with
  | finish r s => exact ⟨path, hrest, List.suffix_rfl⟩
  | step h _ ih =>
    obtain ⟨path', hrun, hsuffix⟩ := ih hrest
    exact ⟨_, .cons_cons ⟨_, .side h⟩ hrun, hsuffix.trans (List.suffix_cons _ _)⟩

section Runs

variable {concurrent : Bool} {P : FieldError → Prop} {p : Job σ} {s : Effects σ}
  {path : List (Job σ × Effects σ)}

theorem Relays.of_isRun (hp : Relays concurrent P p) (hrun : IsRun ((p, s) :: path)) :
    ∀ c ∈ (p, s) :: path, Relays concurrent P c.1 ∧ s.Extends P c.2 := by
  induction path generalizing p s with
  | nil => exact List.forall_mem_singleton.mpr ⟨hp, .refl s⟩
  | cons next path ih =>
    obtain ⟨⟨ms, hstep⟩, hrest⟩ := List.isChain_cons_cons.mp hrun
    obtain ⟨hp', hextends⟩ := hp.step hstep
    refine List.forall_mem_cons.mpr ⟨⟨hp, .refl s⟩, fun c hc => ?_⟩
    obtain ⟨hc, hextends'⟩ := ih hp' hrest c hc
    exact ⟨hc, hextends.trans hextends'⟩

/-- A violation that has been raised comes out at the end of the run, unless tasks ran side by side:
then another one may come out, or a violation is overruled on the way. -/
theorem Raising.of_isRun {v : Violation} (h : Raising v p) (hp : Relays concurrent P p)
    (hrun : IsRun ((p, s) :: path)) {r : Ending} {s' : Effects σ}
    (hlast : ((p, s) :: path).getLast? = some (finish r, s')) :
    r = .error (.violation v) ∨ concurrent = true ∧
      ((∃ w, r = .error (.violation w)) ∨ ∃ c ∈ (p, s) :: path, Overruling c.1) := by
  induction path generalizing p s v with
  | nil =>
    obtain ⟨rfl, rfl⟩ := Prod.mk.inj (Option.some.inj hlast)
    exact .inl h.of_finish
  | cons next path ih =>
    obtain ⟨⟨ms, hstep⟩, hrest⟩ := List.isChain_cons_cons.mp hrun
    rw [List.getLast?_cons_cons] at hlast
    have hnext {w : Violation} (hw : Raising w next.1) := ih hw (hp.step hstep).1 hrest hlast
    rcases h.step hp hstep with hv | ⟨hconcurrent, hover | ⟨w, hw⟩⟩
    · rcases hnext hv with hr | ⟨hconcurrent, hr | ⟨c, hc, hover⟩⟩
      · exact .inl hr
      · exact .inr ⟨hconcurrent, .inl hr⟩
      · exact .inr ⟨hconcurrent, .inr ⟨c, List.mem_cons_of_mem _ hc, hover⟩⟩
    · exact .inr ⟨hconcurrent, .inr ⟨(p, s), List.mem_cons_self, hover⟩⟩
    · rcases hnext hw with hr | ⟨hconcurrent, hr | ⟨c, hc, hover⟩⟩
      · exact .inr ⟨hconcurrent, .inl ⟨w, hr⟩⟩
      · exact .inr ⟨hconcurrent, .inl hr⟩
      · exact .inr ⟨hconcurrent, .inr ⟨c, List.mem_cons_of_mem _ hc, hover⟩⟩

end Runs

end Job

section Resolvers

mutual

/-- The resolvers of a value may fail with an error, or report it. -/
def Node.MayFailWith (e : FieldError) : Node σ → Prop
  | .mk _ _ field into whole =>
    (∃ name arguments c, (field name arguments c).MayFailWith e) ∨
      (∃ condition, (into condition).MayFailWith e) ∨ whole.MayFailWith e

def Override.MayFailWith (e : FieldError) : Override σ → Prop
  | .none => False
  | .custom run => ∃ c, (run c).MayFailWith e

def Action.MayFailWith (e : FieldError) : Action σ → Prop
  | .value _ => False
  | .fail e' => e = e'
  | .violate _ => False
  | .report e' _ next => e = e' ∨ next.MayFailWith e
  | .update _ next => ∃ world, (next world).MayFailWith e
  | .resolve node next => presentMayFailWith e node ∨ ∃ v, (next v).MayFailWith e
  | .resolveInto node next => node.MayFailWith e ∨ ∃ v, (next v).MayFailWith e
  | .resolveList nodes next => itemsMayFailWith e nodes ∨ ∃ v, (next v).MayFailWith e

def presentMayFailWith (e : FieldError) : Option (Node σ) → Prop
  | none => e = .ofText (lit "Resolved a missing value")
  | some node => node.MayFailWith e

def itemMayFailWith (e : FieldError) : Option (Node σ) → Prop
  | none => False
  | some node => node.MayFailWith e

def itemsMayFailWith (e : FieldError) : List (Option (Node σ)) → Prop
  | [] => False
  | node :: rest => itemMayFailWith e node ∨ itemsMayFailWith e rest

end

variable {concurrent : Bool} {P : FieldError → Prop} {h : Job.Handlers σ}

theorem Cursor.isConcurrent_imp {c : Cursor} (hc : c.scope.concurrent = concurrent)
    (h : c.isConcurrent = true) : concurrent = true := by
  subst hc
  exact (Bool.and_eq_true _ _ ▸ h).1

mutual

theorem Step.relays_job (hfield : ∀ t : FieldTask, t.cursor.scope.concurrent = concurrent →
      (h.field t).Relays concurrent P)
    (hinto : ∀ (condition : Text) (c : Cursor) (p : Job σ), c.scope.concurrent = concurrent →
      h.into condition c = some p → p.Relays concurrent P)
    {side : Bool} (asked : side = true → concurrent = true) :
    ∀ s : Step, s.IsIn concurrent → (s.job h side).Relays concurrent P
  | .typename _, _ => .value _
  | .field t, hs =>
    (((hfield t hs).during (.field t)).captured t.cursor t.location).bind fun _ => .value _
  | .splice plan, hs => .joins asked _ (Plan.relays_jobs hfield hinto asked (plan ()) hs)
  | .narrow n plan, hs => by
    have htasks := Plan.relays_jobs hfield hinto asked (plan ()) hs.2
    unfold Step.job
    cases hn : h.into n.condition n.cursor with
    | some p =>
      have hp := hinto _ _ p hs.1 hn
      exact ((hp.during (.into n)).captured n.cursor n.location).bind fun _ => .value _
    | none => exact (Job.Relays.joins asked _ htasks).bind fun _ => .value _

theorem Plan.relays_jobs (hfield : ∀ t : FieldTask, t.cursor.scope.concurrent = concurrent →
      (h.field t).Relays concurrent P)
    (hinto : ∀ (condition : Text) (c : Cursor) (p : Job σ), c.scope.concurrent = concurrent →
      h.into condition c = some p → p.Relays concurrent P)
    {side : Bool} (asked : side = true → concurrent = true) :
    ∀ plan : Plan, plan.IsIn concurrent → ∀ p ∈ plan.jobs h side, p.Relays concurrent P
  | .done, _, _, hp => (List.not_mem_nil hp).elim
  | .stop _, _, _, hp => (List.not_mem_nil hp).elim
  | .step s rest, hplan, p, hp => by
    have hs := Step.relays_job hfield hinto asked s hplan.1
    rcases List.mem_cons.mp hp with rfl | hp
    · exact hs
    · exact Plan.relays_jobs hfield hinto asked rest hplan.2 p hp

end

mutual

theorem Node.relays_job : ∀ (node : Node σ) (c : Cursor), (∀ e, node.MayFailWith e → P e) →
    c.scope.concurrent = concurrent → (node.job c).Relays concurrent P
  | .mk typeName objectName field into whole, c, hP, hc => by
    unfold Node.job
    cases hw : whole.job? c with
    | some p =>
      have hwhole := Override.relays_job whole c p (fun e he => hP e (.inr (.inr he))) hc hw
      exact hwhole.during (.whole c)
    | none =>
      cases c.selections with
      | none => exact .violate _
      | some selections =>
        cases c.scope.schema.requireType typeName with
        | error v => exact .violate v
        | ok type =>
          exact .joins (Cursor.isConcurrent_imp hc) _ (Plan.relays_jobs
            (fun t ht => Action.relays_job _ t.cursor (fun e he => hP e (.inl ⟨_, _, _, he⟩)) ht)
            (fun condition c p hc hp =>
              Override.relays_job _ c p (fun e he => hP e (.inr (.inl ⟨_, he⟩))) hc hp)
            (Cursor.isConcurrent_imp hc) _ (Plan.isIn_ofSelectionSet hc selections))

theorem Override.relays_job : ∀ (o : Override σ) (c : Cursor) (p : Job σ),
    (∀ e, o.MayFailWith e → P e) → c.scope.concurrent = concurrent → o.job? c = some p →
      p.Relays concurrent P
  | .none, _, _, _, _, h => nomatch h
  | .custom f, c, p, hP, hc, h => by
    have hp : (f c).job c = p := Option.some.inj h
    rw [← hp]
    exact Action.relays_job (f c) c (fun e he => hP e ⟨c, he⟩) hc

/-- The jobs of resolvers pass violations on, and record what the resolvers fail with or report. -/
theorem Action.relays_job : ∀ (a : Action σ) (c : Cursor), (∀ e, a.MayFailWith e → P e) →
    c.scope.concurrent = concurrent → (a.job c).Relays concurrent P
  | .value v, _, _, _ => .value v
  | .fail e, _, hP, _ => .finish fun _ h => by
    cases h
    exact hP e rfl
  | .violate v, _, _, _ => .violate v
  | .report e location next, c, hP, hc =>
    .act (fun s => .record s c (location.getD c.location) (hP e (.inl rfl))) fun _ =>
      Action.relays_job next c (fun e he => hP e (.inr he)) hc
  | .update _ next, c, hP, hc =>
    .act (fun _ => .of_eq rfl) fun s =>
      Action.relays_job (next s.world) c (fun e he => hP e ⟨_, he⟩) hc
  | .resolve node next, c, hP, hc =>
    (relays_ofPresent node c (fun e he => hP e (.inl he)) hc).bind fun v =>
      Action.relays_job (next v) c (fun e he => hP e (.inr ⟨v, he⟩)) hc
  | .resolveInto node next, c, hP, hc =>
    ((Node.relays_job node c (fun e he => hP e (.inl he)) hc).captured c c.location).bind fun v =>
      Action.relays_job (next v) c (fun e he => hP e (.inr ⟨v, he⟩)) hc
  | .resolveList nodes next, c, hP, hc => by
    unfold Action.job
    cases c.currentType.element? with
    | none => exact .violate _
    | some element =>
      have hitems := relays_ofItems element.isNonNull nodes 0 c (fun e he => hP e (.inl he)) hc
      exact hitems.bind fun v =>
        Action.relays_job (next v) c (fun e he => hP e (.inr ⟨v, he⟩)) hc

theorem relays_ofPresent : ∀ (node : Option (Node σ)) (c : Cursor),
    (∀ e, presentMayFailWith e node → P e) → c.scope.concurrent = concurrent →
      (Job.ofPresent node c).Relays concurrent P
  | none, _, hP, _ => .finish fun _ h => by
    cases h
    exact hP _ rfl
  | some node, c, hP, hc => Node.relays_job node c hP hc

theorem relays_ofItem : ∀ (node : Option (Node σ)) (c : Cursor),
    (∀ e, itemMayFailWith e node → P e) → c.scope.concurrent = concurrent →
      (Job.ofItem node c).Relays concurrent P
  | none, _, _, _ => .value _
  | some node, c, hP, hc => (Node.relays_job node c hP hc).captured c c.location

theorem relays_ofItems (stopOnNull : Bool) : ∀ (nodes : List (Option (Node σ))) (i : Nat)
    (c : Cursor), (∀ e, itemsMayFailWith e nodes → P e) → c.scope.concurrent = concurrent →
      (Job.ofItems stopOnNull nodes i c).Relays concurrent P
  | [], _, _, _, _ => .value _
  | node :: rest, i, c, hP, hc => by
    apply (relays_ofItem node (c.atIndex i) (fun e he => hP e (.inl he)) hc).bind
    intro v
    split
    · exact .value _
    · have hrest := relays_ofItems stopOnNull rest (i + 1) c (fun e he => hP e (.inr he)) hc
      exact hrest.bind fun _ => .value _

end

end Resolvers

theorem Ending.toOutput_eq_error_iff {r : Ending} {errors : List ExecutionError} {v : Violation} :
    r.toOutput errors = .error v ↔ r = .error (.violation v) := by
  rcases r with (e | w) | data <;> simp [toOutput]

namespace Service

variable {service : Service σ} {op : Operation} {type : TypeDef} {node : Node σ}

/-- Executing an operation is one of the runs of its job. On every run, what is recorded is what
resolvers fail with or report, so that no violation is. In turn, a violation that is raised ends the
request. Side by side, one ends the request exactly if some violation is raised after which none is
overruled: each may be lost in a fork where a task before it has nulled the object. -/
theorem executeOperation_violations (hroot : service.root op = .ok (type, node)) (doc : Document)
    (settings : Settings) (session : Session σ) :
    let start : Job σ × Effects σ :=
      (op.job service.schema doc settings type node, ⟨[], session.world⟩)
    (∃ path r s', Job.IsRun (start :: path) ∧
      (start :: path).getLast? = some (.finish r, s') ∧
      ((service.executeOperation doc op settings).run.run session).1 = r.toOutput s'.errors) ∧
    ∀ path r s', Job.IsRun (start :: path) → (start :: path).getLast? = some (.finish r, s') →
      (∀ e ∈ s'.errors, node.MayFailWith e.error) ∧
      (settings.concurrent = false → ∀ c ∈ start :: path, ∀ v, Job.Raising v c.1 →
        r.toOutput s'.errors = .error v) ∧
      ((∃ v, r.toOutput s'.errors = .error v) ↔ ∃ before c after v,
        start :: path = before ++ c :: after ∧ Job.Raising v c.1 ∧
          ∀ d ∈ c :: after, ¬ Job.Overruling d.1) := by
  intro start
  refine ⟨?_, fun path r s' hrun hlast => ?_⟩
  · obtain ⟨ms, r, s', hruns, houtput, -⟩ := exists_runs_executeOperation hroot doc settings session
    obtain ⟨path, hrun, hlast⟩ := hruns.exists_isRun
    exact ⟨path, r, s', hrun, hlast, houtput⟩
  have hmode : (op.cursor (op.scope service.schema doc settings) type).scope.concurrent =
      settings.concurrent := by
    rw [Operation.scope_cursor]
    rfl
  have hstart : Job.Relays settings.concurrent (node.MayFailWith ·) start.1 :=
    (Node.relays_job node _ (fun _ => id) hmode).captured _ _
  have hrelays := hstart.of_isRun hrun
  -- whatever comes after a violation is raised is the rest of the run
  have hraised {before after : List (Job σ × Effects σ)} {c : Job σ × Effects σ} {v : Violation}
      (hpath : start :: path = before ++ c :: after) (hv : Job.Raising v c.1) :
      r = .error (.violation v) ∨ settings.concurrent = true ∧
        ((∃ w, r = .error (.violation w)) ∨ ∃ d ∈ c :: after, Job.Overruling d.1) := by
    have hc := (hrelays c (hpath ▸ by simp)).1
    rw [hpath] at hrun hlast
    rw [List.getLast?_append_of_ne_nil _ (by simp)] at hlast
    exact hv.of_isRun hc hrun.right_of_append hlast
  refine ⟨?_, fun hturn c hc v hv => ?_, ?_⟩
  · obtain ⟨new, hnew, hall⟩ := (hrelays _ (List.mem_of_getLast? hlast)).2
    obtain rfl : s'.errors = new := hnew
    exact hall
  · obtain ⟨before, after, hpath⟩ := List.append_of_mem hc
    rcases hraised hpath hv with rfl | ⟨hconcurrent, -⟩
    · rfl
    · rw [hturn] at hconcurrent
      cases hconcurrent
  · simp only [Ending.toOutput_eq_error_iff]
    constructor
    · rintro ⟨v, rfl⟩
      obtain ⟨before, hpath⟩ := List.getLast?_eq_some_iff.mp hlast
      refine ⟨before, _, [], v, hpath, .unwind .finish, ?_⟩
      rw [List.forall_mem_singleton]
      rintro ⟨⟩
    · rintro ⟨before, c, after, v, hpath, hv, hover⟩
      rcases hraised hpath hv with rfl | ⟨-, hw | ⟨d, hd, hoverruling⟩⟩
      · exact ⟨v, rfl⟩
      · exact hw
      · exact absurd hoverruling (hover d hd)

end Service

namespace Siblings

/-- The first field fails, and the second one breaks an invariant. -/
def breaking : Node Unit :=
  .mk (lit "Query") (lit "Query") (fun name _ _ =>
    if name == lit "a" then .fail (.ofText (lit "no a")) else .violate (.raised (lit "broken")))
    (fun _ => .none) .none

def breakingService : Service Unit := ⟨schema, some breaking, none, none⟩

theorem eq_of_mayFailWith_breaking {e : FieldError} (h : breaking.MayFailWith e) :
    e = .ofText (lit "no a") := by
  rcases h with ⟨name, arguments, c, h⟩ | ⟨_, h⟩ | h
  · dsimp only at h
    split at h
    · exact h
    · exact h.elim
  · exact h.elim
  · exact h.elim

/-- Side by side, the second field breaks off although the first one nulls the object. -/
theorem exists_isRun_breaking :
    let start := (operation.job schema [.operation operation] ⟨[], none, true⟩ (.object query)
      breaking, ⟨[], ()⟩)
    ∃ path s', Job.IsRun (start :: path) ∧
      (start :: path).getLast? = some (.finish (.ok .null), s') ∧
      ∃ c ∈ start :: path, Job.Raising (.raised (lit "broken")) c.1 := by
  intro start
  let broken : Ending := .error (.violation (.raised (lit "broken")))
  obtain ⟨a, b, f, next, hjob, hnext⟩ : ∃ a b f next,
      operation.job schema [.operation operation] ⟨[], none, true⟩ (.object query) breaking =
        .fork true none [.mark (.enter a) (.mark (.leave a) (.act f fun _ => .finish (.ok .null))),
          .mark (.enter b) (.mark (.leave b) (.finish broken))] next ∧
      next (.ok none) = .finish (.ok .null) := ⟨_, _, _, _, rfl, rfl⟩
  let ended : Job Unit × Effects Unit :=
    (.fork true none [.finish (.ok .null), .finish broken] next, f ⟨[], ()⟩)
  have hjoin : Job.IsRun [ended, (.finish (.ok .null), f ⟨[], ()⟩)] := by
    refine .cons_cons ⟨[], ?_⟩ (.singleton _)
    have hstep := Job.Step.join true none [.ok .null, broken] next (f ⟨[], ()⟩)
    rwa [show Process.joined none [.ok .null, broken] = .ok none from rfl, hnext] at hstep
  obtain ⟨path', hrun', hsuffix'⟩ := Job.Runs.isRun_side
    (.step (.mark (.enter b) _ _) (.step (.mark (.leave b) _ _) (.finish broken _)))
    [.finish (.ok .null)] [] hjoin
  obtain ⟨path, hrun, hsuffix⟩ := Job.Runs.isRun_side
    (.step (.mark (.enter a) _ _) (.step (.mark (.leave a) _ _)
      (.step (.act f (fun _ => .finish (.ok .null)) _) (.finish (.ok .null) _)))) [] _ hrun'
  have hstart : start = (_, _) := congrArg (·, _) hjob
  have hend : [ended, (.finish (.ok .null), f ⟨[], ()⟩)] <:+ start :: path := by
    rw [hstart]
    exact hsuffix'.trans hsuffix
  refine ⟨path, f ⟨[], ()⟩, ?_, ?_, ended, hend.subset List.mem_cons_self, ?_⟩
  · rw [hstart]
    exact hrun
  · obtain ⟨before, hpath⟩ := hend
    rw [← hpath]
    simp
  · exact .side (List.mem_cons_of_mem _ List.mem_cons_self) (.unwind .finish)

/-- The violation of the second field is raised, and the response is null all the same. -/
theorem overruling_breaking :
    let start := (operation.job schema [.operation operation] ⟨[], none, true⟩ (.object query)
      breaking, ⟨[], ()⟩)
    breakingService.root operation = .ok (.object query, breaking) ∧
      ∃ path r s', Job.IsRun (start :: path) ∧
        (start :: path).getLast? = some (.finish r, s') ∧
        (∃ c ∈ start :: path, Job.Raising (.raised (lit "broken")) c.1) ∧
        (∀ e ∈ s'.errors, e.error = .ofText (lit "no a")) ∧
        (∃ output, r.toOutput s'.errors = .ok output ∧ output.data = .null) ∧
        ∃ d ∈ start :: path, Job.Overruling d.1 := by
  intro start
  have hroot : breakingService.root operation = .ok (.object query, breaking) := rfl
  obtain ⟨path, s', hrun, hlast, c, hc, hraising⟩ := exists_isRun_breaking
  obtain ⟨herrors, -, hiff⟩ := (Service.executeOperation_violations hroot [.operation operation]
    ⟨[], none, true⟩ ⟨[], ()⟩).2 path _ s' hrun hlast
  refine ⟨hroot, path, _, s', hrun, hlast, ⟨c, hc, hraising⟩,
    fun e he => eq_of_mayFailWith_breaking (herrors e he), ⟨_, rfl, rfl⟩, ?_⟩
  by_contra hover
  obtain ⟨before, after, hpath⟩ := List.append_of_mem hc
  obtain ⟨v, hv⟩ := hiff.mpr ⟨before, c, after, _, hpath, hraising, fun d hd hd' =>
    hover ⟨d, hpath ▸ List.mem_append_right before hd, hd'⟩⟩
  cases hv

end Siblings

end GraphQL
