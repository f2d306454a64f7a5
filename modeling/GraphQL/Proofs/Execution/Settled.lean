import GraphQL.Proofs.Execution.Plans

/-! What all runs of a computation come to: a result of a kind, or an early end of a kind. A plan
comes to the fields of an object unless one of its fields, or a change of type, is broken off. -/

namespace GraphQL

variable {ε S α β σ : Type}

/-- A result of a kind, or something of a kind instead. -/
def Ended (Q : α → Prop) (P : ε → Prop) : Except ε α → Prop
  | .ok a => Q a
  | .error e => P e

theorem Ended.mono {Q R : α → Prop} {P : ε → Prop} {r : Except ε α} (h : Ended Q P r)
    (hQ : ∀ a, Q a → R a) : Ended R P r := by
  cases r with
  | ok a => exact hQ a h
  | error e => exact h

/-- The results of a computation are of a kind, and so is whatever ends it early. -/
def Settles (Q : α → Prop) (P : ε → Prop) (x : ExceptT ε (StateM S) α) : Prop :=
  ∀ s, Ended Q P (x.run.run s).1

/-- A computation that never comes to a result. -/
abbrev Aborts (P : ε → Prop) (x : ExceptT ε (StateM S) α) : Prop := Settles (fun _ => False) P x

namespace Settles

variable {P : ε → Prop} {Q R : α → Prop} {x : ExceptT ε (StateM S) α}

theorem pure {a : α} (h : Q a) : Settles Q P (pure a : ExceptT ε (StateM S) α) := fun _ => h

theorem throw {e : ε} (h : P e) : Settles Q P (throw e : ExceptT ε (StateM S) α) := fun _ => h

theorem mono (hx : Settles Q P x) (h : ∀ a, Q a → R a) : Settles R P x :=
  fun s => (hx s).mono h

theorem bind {R : β → Prop} (hx : Settles Q P x) {f : α → ExceptT ε (StateM S) β}
    (hf : ∀ a, Q a → Settles R P (f a)) : Settles R P (x >>= f) := by
  intro s
  have hx := hx s
  rw [run_bind]
  rcases hr : x.run.run s with ⟨e | a, t⟩
  · rw [hr] at hx
    exact hx
  · rw [hr] at hx
    exact hf a hx t

/-- What comes to a result does not always end early. -/
theorem not_aborts (hx : Settles Q P x) : Settles (fun a => Q a ∧ ¬ Aborts P x) P x := by
  intro s
  have hs := hx s
  cases hr : (x.run.run s).1 with
  | error e =>
    rw [hr] at hs
    exact hs
  | ok a =>
    rw [hr] at hs
    refine ⟨hs, fun haborts => ?_⟩
    have hnone := haborts s
    rw [hr] at hnone
    exact hnone

end Settles

theorem Aborts.bind {P : ε → Prop} {x : ExceptT ε (StateM S) α} (hx : Aborts P x)
    (f : α → ExceptT ε (StateM S) β) : Aborts P (x >>= f) := Settles.bind hx fun _ h => h.elim

theorem Aborts.exists_error {P : ε → Prop} {x : ExceptT ε (StateM S) α} (hx : Aborts P x) (s : S) :
    ∃ e, P e ∧ (x.run.run s).1 = .error e := by
  have hs := hx s
  cases hr : (x.run.run s).1 with
  | error e =>
    rw [hr] at hs
    exact ⟨e, hs, rfl⟩
  | ok a =>
    rw [hr] at hs
    exact hs.elim

/-- Why a resolver ends early, if that breaks off the request. -/
def Raise.IsViolation (P : Violation → Prop) : Raise → Prop
  | .failure _ => False
  | .violation v => P v

section Resolving

variable {P : Violation → Prop} {Q : α → Prop}

theorem Settles.captured {x : Resolve σ α} (hx : Settles Q (Raise.IsViolation P) x) (c : Cursor)
    (location : Position) :
    Settles (fun o => ∃ a, o = some a ∧ Q a) P (x.captured c location) := by
  intro s
  have hx := hx s
  rw [Resolve.run_captured]
  rcases hr : x.run.run s with ⟨(e | v) | a, t⟩
  · rw [hr] at hx
    exact hx.elim
  · rw [hr] at hx
    exact hx
  · rw [hr] at hx
    exact ⟨a, rfl, hx⟩

theorem Settles.toResolve {x : Run σ α} (hx : Settles Q P x) :
    Settles Q (Raise.IsViolation P) x.toResolve := by
  intro s
  have hx := hx s
  rw [Run.run_toResolve]
  rcases hr : x.run.run s with ⟨v | a, t⟩
  · rw [hr] at hx
    exact hx
  · rw [hr] at hx
    exact hx

end Resolving

/-- How a computation on its own ends is told to what goes on from it. -/
theorem Settles.perform {Q : α → Prop} {P P' : Violation → Prop} {x : Run σ α}
    (hx : Settles Q P x) :
    Settles (fun ended => Ended Q P ended.1) P' (Engine.perform x) := by
  intro session
  rw [Engine.run_perform]
  exact hx _

theorem Settles.say {P : Violation → Prop} (messages : List Console.Message) :
    Settles (fun _ => True) P (Engine.say messages : Engine σ Unit) := fun _ => trivial

theorem Settles.mapM {ε S : Type} {P : ε → Prop} {f : α → ExceptT ε (StateM S) β} {l : List α}
    (h : ∀ a ∈ l, Settles (fun _ => True) P (f a)) :
    Settles (fun _ => ∀ a ∈ l, ¬ Aborts P (f a)) P (l.mapM f) := by
  induction l with
  | nil => exact .pure (by simp)
  | cons a rest ih =>
    rw [List.mapM_cons]
    refine (h a (by simp)).not_aborts.bind fun b hb => ?_
    refine (ih fun c hc => h c (List.mem_cons_of_mem _ hc)).bind fun bs hbs => ?_
    exact .pure (List.forall_mem_cons.mpr ⟨hb.2, hbs⟩)

theorem Settles.ofExcept {P : Violation → Prop} {x : Except Violation α} {a : α} (h : x = .ok a) :
    Settles (fun b => a = b) P (Run.ofExcept x : Run σ α) := by
  subst h
  exact .pure rfl

namespace Tasks

variable {P : Violation → Prop} {tasks : List (Run σ Outcome)}

theorem settles_runInTurn (h : ∀ x ∈ tasks, Settles (fun o => o.isSome) P x)
    (merged : Keyed Value) :
    Settles (fun o => o.isSome ∧ ∀ x ∈ tasks, ¬ Aborts P x) P (runInTurn tasks merged) := by
  induction tasks generalizing merged with
  | nil => exact .pure ⟨rfl, by simp⟩
  | cons x rest ih =>
    refine (h x (by simp)).not_aborts.bind fun o ho => ?_
    obtain ⟨hsome, hx⟩ := ho
    obtain ⟨fields, rfl⟩ := Option.isSome_iff_exists.mp hsome
    have hrest := ih (fun y hy => h y (List.mem_cons_of_mem _ hy)) (Value.mergeFields fields merged)
    exact hrest.mono fun o ho => ⟨ho.1, List.forall_mem_cons.mpr ⟨hx, ho.2⟩⟩

/-- What tasks came to, side by side, is merged unless one of them was broken off. -/
theorem settles_merge (h : ∀ x ∈ tasks, Settles (fun o => o.isSome) P x) (s : Effects σ)
    (merged : Keyed Value) :
    Ended (fun o => o.isSome ∧ ∀ x ∈ tasks, ¬ Aborts P x) P
      (merge ((tasks.mapM ExceptT.run).run s).1 merged) := by
  induction tasks generalizing s merged with
  | nil => exact ⟨rfl, by simp⟩
  | cons x rest ih =>
    have hx := (h x (by simp)).not_aborts s
    rw [run_mapM_cons]
    rcases hr : (x.run.run s).1 with v | _ | fields
    · rw [hr] at hx
      exact hx
    · rw [hr] at hx
      cases hx.1
    · rw [hr] at hx
      have hrest := ih (fun y hy => h y (List.mem_cons_of_mem _ hy)) (x.run.run s).2
        (Value.mergeFields fields merged)
      exact hrest.mono fun o ho => ⟨ho.1, List.forall_mem_cons.mpr ⟨hx.2, ho.2⟩⟩

theorem settles_run {tasks : Tasks σ} (hstop : tasks.stop = none)
    (h : ∀ x ∈ tasks.inOrder, Settles (fun o => o.isSome) P x) (concurrent : Bool) :
    Settles (fun o => o.isSome ∧ ∀ x ∈ tasks.inOrder, ¬ Aborts P x) P (tasks.run concurrent) := by
  cases concurrent with
  | true =>
    intro s
    rw [run, if_pos rfl, run_runSideBySide, hstop]
    exact settles_merge h s []
  | false =>
    rw [run, if_neg (by simp), hstop]
    exact settles_runInTurn h []

end Tasks

mutual

/-- A field is always broken off, or so is resolving the object as another type. -/
def Step.Breaks (h : Subject.Handlers σ) (P : Violation → Prop) : Step → Prop
  | .typename _ => False
  | .field task => Aborts (Raise.IsViolation P) (h.field task)
  | .splice plan => (plan ()).Breaks h P
  | .narrow n _ => ∃ x, h.into n.condition n.cursor = some x ∧ Aborts (Raise.IsViolation P) x

def Plan.Breaks (h : Subject.Handlers σ) (P : Violation → Prop) : Plan → Prop
  | .done => False
  | .stop _ => False
  | .step s rest => s.Breaks h P ∨ rest.Breaks h P

end

section Plans

variable {P : Violation → Prop} {field : FieldTask → Prop} {narrow : Narrowing → Prop}
  {h : Subject.Handlers σ}

mutual

theorem Step.settles_run
    (hfield : ∀ t, field t → Settles (fun v => v.isNull = false) (Raise.IsViolation P) (h.field t))
    (hnarrow : ∀ n x, narrow n → h.into n.condition n.cursor = some x →
      Settles (fun _ => True) (Raise.IsViolation P) x) (concurrent : Bool) :
    ∀ step : Step, step.All field narrow (fun _ => False) →
      Settles (fun o => o.isSome ∧ ¬ step.Breaks h P) P (step.run h concurrent)
  | .typename _, _ => .pure ⟨rfl, id⟩
  | .field task, ht => by
    refine ((hfield task ht).not_aborts.captured _ _).bind fun o ho => ?_
    obtain ⟨v, rfl, hv, hnone⟩ := ho
    exact .pure ⟨by simp [hv], hnone⟩
  | .splice plan, hp => Plan.settles_run hfield hnarrow concurrent (plan ()) hp
  | .narrow n plan, ⟨hn, hp⟩ => by
    have hplan := Plan.settles_run hfield hnarrow concurrent (plan ()) hp
    unfold Step.run Step.Breaks
    cases hx : h.into n.condition n.cursor with
    | none => exact hplan.bind fun _ _ => .pure ⟨rfl, by simp⟩
    | some x =>
      refine ((hnarrow n x hn hx).not_aborts.captured _ _).bind fun o ho => ?_
      obtain ⟨v, rfl, -, hnone⟩ := ho
      exact .pure ⟨rfl, fun ⟨y, hy, haborts⟩ => hnone (Option.some.inj hy ▸ haborts)⟩

theorem Plan.settles_tasks
    (hfield : ∀ t, field t → Settles (fun v => v.isNull = false) (Raise.IsViolation P) (h.field t))
    (hnarrow : ∀ n x, narrow n → h.into n.condition n.cursor = some x →
      Settles (fun _ => True) (Raise.IsViolation P) x) (concurrent : Bool) :
    ∀ plan : Plan, plan.All field narrow (fun _ => False) →
      (plan.tasks h concurrent).stop = none ∧
        (∀ x ∈ (plan.tasks h concurrent).inOrder, Settles (fun o => o.isSome) P x) ∧
        (plan.Breaks h P → ∃ x ∈ (plan.tasks h concurrent).inOrder, Aborts P x)
  | .done, _ => ⟨rfl, by simp [Plan.tasks], False.elim⟩
  | .step s rest, ⟨hs, hr⟩ => by
    have hstep := Step.settles_run hfield hnarrow concurrent s hs
    obtain ⟨hstop, hrest, hbreaks⟩ := Plan.settles_tasks hfield hnarrow concurrent rest hr
    refine ⟨hstop, List.forall_mem_cons.mpr ⟨hstep.mono fun _ ho => ho.1, hrest⟩, ?_⟩
    intro hb
    cases hb with
    | inl hb => exact ⟨_, List.mem_cons_self, hstep.mono fun _ ho => ho.2 hb⟩
    | inr hb =>
      obtain ⟨x, hx, haborts⟩ := hbreaks hb
      exact ⟨x, List.mem_cons_of_mem _ hx, haborts⟩

/-- A plan that never stops comes to the fields of an object, unless one of its fields or a change
of type is broken off, and does not if one always is. -/
theorem Plan.settles_run
    (hfield : ∀ t, field t → Settles (fun v => v.isNull = false) (Raise.IsViolation P) (h.field t))
    (hnarrow : ∀ n x, narrow n → h.into n.condition n.cursor = some x →
      Settles (fun _ => True) (Raise.IsViolation P) x) (concurrent : Bool) (plan : Plan)
    (hp : plan.All field narrow fun _ => False) :
    Settles (fun o => o.isSome ∧ ¬ plan.Breaks h P) P
      ((plan.tasks h concurrent).run concurrent) := by
  obtain ⟨hstop, htasks, hbreaks⟩ := Plan.settles_tasks hfield hnarrow concurrent plan hp
  refine (Tasks.settles_run hstop htasks concurrent).mono fun o ho => ⟨ho.1, fun hb => ?_⟩
  obtain ⟨x, hx, haborts⟩ := hbreaks hb
  exact ho.2 x hx haborts

end

end Plans

namespace Plan

variable {subject : Subject} {expand : Expand} {P : Violation → Prop}
  {field : FieldTask → Prop} {narrow : Narrowing → Prop} {h : Subject.Handlers σ} {c : Cursor}

/-- Where planning never stops, every selection has been planned, and what breaks off its step
breaks off the plan. -/
theorem exists_step_of_mem {x : Selection} {xs : SelectionSet} (hx : x ∈ xs)
    (hall : (ofSelections subject expand c xs).All field narrow fun _ => False) :
    ∃ step, ofSelection subject expand c x = .ok step ∧
      ∀ s, step = some s → s.All field narrow (fun _ => False) ∧
        (s.Breaks h P → (ofSelections subject expand c xs).Breaks h P) := by
  induction xs with
  | nil => cases hx
  | cons y rest ih =>
    unfold ofSelections at hall ⊢
    rcases hy : ofSelection subject expand c y with v | _ | first
    · rw [hy] at hall
      exact hall.elim
    · rw [hy] at hall
      cases List.mem_cons.mp hx with
      | inl heq =>
        refine ⟨none, heq ▸ hy, fun s hs => ?_⟩
        cases hs
      | inr hx => exact ih hx hall
    · rw [hy] at hall
      cases List.mem_cons.mp hx with
      | inl heq =>
        refine ⟨some first, heq ▸ hy, fun s hs => ?_⟩
        obtain rfl := Option.some.inj hs
        exact ⟨hall.1, .inl⟩
      | inr hx =>
        obtain ⟨step, hstep, hs⟩ := ih hx hall.2
        exact ⟨step, hstep, fun s h => ⟨(hs s h).1, fun hb => .inr ((hs s h).2 hb)⟩⟩

end Plan

end GraphQL
