import GraphQL.Proofs.Execution.Runs

/-! Plans and their tasks: what holds of all steps at all depths, and what the run of a plan inherits
from the runs of its steps. -/

namespace GraphQL

variable {σ : Type}

/-- A field that is selected by its name alone, and what is selected below it. -/
def Selection.ofName (name : Text) (body : Option SelectionSet) : Selection :=
  .field ⟨none, .unlocated name, none, none, .unlocated⟩ body

/-- A fragment in place without directives. -/
def Selection.inFragment (condition : Option Text) (body : SelectionSet) : Selection :=
  .inline ⟨condition.map .unlocated, none, .unlocated⟩ body

/-- The fragment that a spread puts in on an object, if it is not excluded and applies there. -/
def Scope.spreadOn (scope : Scope) (objectName : Text) (sp : Spread) :
    Except Violation (Option Fragment) := do
  if ← Directives.exclude scope.vars (sp.directives.getD []) then return none
  let f ← scope.requireFragment sp.name.value
  if ← scope.schema.meetsCondition f.condition.value objectName then return some f else return none

/-- `true` when what an inline fragment holds is selected on an object. -/
def Scope.entersInline (scope : Scope) (objectName : Text) (head : InlineHead) :
    Except Violation Bool := do
  if ← Directives.exclude scope.vars (head.directives.getD []) then return false
  match head.condition with
  | none => return true
  | some condition => scope.schema.meetsCondition condition.value objectName

def Step.ofInline (head : InlineHead) (inner : Cursor) (plan : Unit → Plan) : Step :=
  match head.condition with
  | none => .splice plan
  | some condition => .narrow ⟨condition.value, inner, head.span.start⟩ plan

theorem Scope.spreadOn_iff {scope : Scope} {objectName : Text} {sp : Spread} {f : Fragment} :
    scope.spreadOn objectName sp = .ok (some f) ↔
      Directives.exclude scope.vars (sp.directives.getD []) = .ok false ∧
        scope.requireFragment sp.name.value = .ok f ∧
        scope.schema.meetsCondition f.condition.value objectName = .ok true := by
  unfold spreadOn
  simp only [bind, Except.bind, pure, Except.pure]
  rcases Directives.exclude scope.vars (sp.directives.getD []) with v | _ | _
  · simp
  · cases scope.requireFragment sp.name.value with
    | error v => simp
    | ok g =>
      constructor
      · intro h
        rcases hm : scope.schema.meetsCondition g.condition.value objectName with v | _ | _
        · simp [hm] at h
        · simp [hm] at h
        · obtain rfl : g = f := by simpa [hm] using h
          exact ⟨rfl, rfl, hm⟩
      · rintro ⟨-, hg, hm⟩
        obtain rfl := Except.ok.inj hg
        simp [hm]
  · simp

theorem Scope.entersInline_iff {scope : Scope} {objectName : Text} {head : InlineHead} :
    scope.entersInline objectName head = .ok true ↔
      Directives.exclude scope.vars (head.directives.getD []) = .ok false ∧
        ∀ name, head.condition.map (·.value) = some name →
          scope.schema.meetsCondition name objectName = .ok true := by
  unfold entersInline
  rcases Directives.exclude scope.vars (head.directives.getD []) with v | _ | _
  · simp [bind, Except.bind]
  · cases head.condition <;> simp [bind, Except.bind, pure, Except.pure]
  · simp [bind, Except.bind, pure, Except.pure]

namespace Plan

variable {subject : Subject} {expand : Expand} {c : Cursor}

theorem ofSelection_spread (sp : Spread) :
    ofSelection subject expand c (.spread sp) =
      (c.scope.spreadOn subject.objectName sp).map
        (Option.map fun f => .splice fun _ => expand c f) := by
  unfold ofSelection Scope.spreadOn
  simp only [bind, Except.bind, pure, Except.pure]
  rcases Directives.exclude c.scope.vars (sp.directives.getD []) with v | _ | _
  · rfl
  · cases c.scope.requireFragment sp.name.value with
    | error v => rfl
    | ok f =>
      rcases hm : c.scope.schema.meetsCondition f.condition.value subject.objectName
        with _ | _ | _ <;> simp [hm, Except.map]
  · rfl

theorem ofSelection_inline (head : InlineHead) (body : SelectionSet) :
    ofSelection subject expand c (.inline head body) =
      (c.scope.entersInline subject.objectName head).map fun entered =>
        if entered then
          some (.ofInline head (c.atInline head.condition body) fun _ =>
            ofSelections subject expand (c.atInline head.condition body) body)
        else none := by
  unfold ofSelection Scope.entersInline Step.ofInline
  simp only [bind, Except.bind, pure, Except.pure]
  rcases Directives.exclude c.scope.vars (head.directives.getD []) with v | _ | _
  · rfl
  · cases head.condition with
    | none => rfl
    | some condition =>
      rcases hm : c.scope.schema.meetsCondition condition.value subject.objectName
        with _ | _ | _ <;> simp [hm, Except.map]
  · rfl

/-- The step of a field tells the type of the object, or resolves a field that the type has. -/
theorem ofField_cases_of_ok {head : FieldHead} {body : Option SelectionSet} {s : Step}
    (h : ofField subject c head body = .ok s) :
    (head.name.value = lit "__typename" ∧ s = .typename head.responseName) ∨
    ∃ declaration below, subject.type.field? head.name.value = some declaration ∧
      c.atField ⟨head, declaration⟩ body = .ok below ∧
      s = .field ⟨head.responseName, head.name.value,
        .ofField c.scope.vars head declaration.arguments, below, declaration.type.isNonNull⟩ := by
  unfold ofField at h
  by_cases hn : head.name.value = lit "__typename"
  · refine .inl ⟨hn, ?_⟩
    simpa [hn, pure, Except.pure] using h.symm
  · cases hd : subject.type.field? head.name.value with
    | none => simp [hn, hd, throw, throwThe, MonadExceptOf.throw] at h
    | some declaration =>
      cases hc : c.atField ⟨head, declaration⟩ body with
      | error v => simp [hn, hd, hc, bind, Except.bind] at h
      | ok below =>
        simp only [hd, hc, beq_iff_eq, hn, if_false, bind, Except.bind, pure, Except.pure,
          Except.ok.injEq] at h
        exact .inr ⟨declaration, below, rfl, hc, h.symm⟩

theorem ofField_of_ofSelection {head : FieldHead} {body : Option SelectionSet} {s : Step}
    (h : ofSelection subject expand c (.field head body) = .ok (some s)) :
    Directives.exclude c.scope.vars (head.directives.getD []) = .ok false ∧
      ofField subject c head body = .ok s := by
  unfold ofSelection at h
  rcases hx : Directives.exclude c.scope.vars (head.directives.getD []) with v | _ | _
  · simp [hx, bind, Except.bind] at h
  · cases hf : ofField subject c head body with
    | error v => simp [hx, hf, bind, Except.bind] at h
    | ok s' =>
      obtain rfl : s' = s := by simpa [hx, hf, bind, Except.bind, pure, Except.pure] using h
      exact ⟨rfl, rfl⟩
  · simp [hx, bind, Except.bind, pure, Except.pure] at h

theorem spreadOn_of_ofSelection {sp : Spread} {s : Step}
    (h : ofSelection subject expand c (.spread sp) = .ok (some s)) :
    ∃ f, c.scope.spreadOn subject.objectName sp = .ok (some f) ∧
      s = .splice fun _ => expand c f := by
  rw [ofSelection_spread] at h
  rcases hx : c.scope.spreadOn subject.objectName sp with v | _ | f
  · simp [hx, Except.map] at h
  · simp [hx, Except.map] at h
  · exact ⟨f, rfl, by simpa [hx, Except.map] using h.symm⟩

theorem entersInline_of_ofSelection {head : InlineHead} {body : SelectionSet} {s : Step}
    (h : ofSelection subject expand c (.inline head body) = .ok (some s)) :
    c.scope.entersInline subject.objectName head = .ok true ∧
      s = .ofInline head (c.atInline head.condition body) fun _ =>
        ofSelections subject expand (c.atInline head.condition body) body := by
  rw [ofSelection_inline] at h
  rcases hx : c.scope.entersInline subject.objectName head with v | _ | _
  · simp [hx, Except.map] at h
  · simp [hx, Except.map] at h
  · exact ⟨rfl, by simpa [hx, Except.map] using h.symm⟩

end Plan

theorem Cursor.exists_of_atField {c below : Cursor} {field : SelectedField}
    {selections : Option SelectionSet} (h : c.atField field selections = .ok below) :
    ∃ type, c.scope.schema.position field.declaration.type = .ok type ∧
      below = ⟨c.scope, selections, type,
        c.path.field field.head.responseName field.head.span.start, some field, false⟩ := by
  unfold Cursor.atField at h
  cases ht : c.scope.schema.position field.declaration.type with
  | error v => simp [ht, bind, Except.bind] at h
  | ok type =>
    simp only [ht, bind, Except.bind, pure, Except.pure, Except.ok.injEq] at h
    exact ⟨type, rfl, h.symm⟩

mutual

/-- Every field, every change of type and every stop of a step is as asked, at all depths. -/
def Step.All (field : FieldTask → Prop) (narrow : Narrowing → Prop) (stop : Violation → Prop) :
    Step → Prop
  | .typename _ => True
  | .field task => field task
  | .splice plan => (plan ()).All field narrow stop
  | .narrow n plan => narrow n ∧ (plan ()).All field narrow stop

def Plan.All (field : FieldTask → Prop) (narrow : Narrowing → Prop) (stop : Violation → Prop) :
    Plan → Prop
  | .done => True
  | .stop v => stop v
  | .step s rest => s.All field narrow stop ∧ rest.All field narrow stop

end

theorem Step.all_ofInline {head : InlineHead} {inner : Cursor} {plan : Unit → Plan}
    {field : FieldTask → Prop} {narrow : Narrowing → Prop} {stop : Violation → Prop}
    (hplan : (plan ()).All field narrow stop)
    (hnarrow : ∀ condition, head.condition = some condition →
      narrow ⟨condition.value, inner, head.span.start⟩) :
    (Step.ofInline head inner plan).All field narrow stop := by
  unfold Step.ofInline
  cases hcond : head.condition with
  | none => exact hplan
  | some condition => exact ⟨hnarrow condition hcond, hplan⟩

/-- A plan that does not stop, neither itself nor inside a fragment. -/
abbrev Plan.IsComplete : Plan → Prop := All (fun _ => True) (fun _ => True) fun _ => False

abbrev Step.IsComplete : Step → Prop := All (fun _ => True) (fun _ => True) fun _ => False

/-- What is left of a step when fragments are replaced by what they hold. -/
inductive Leaf where
  | typename (key : Text)
  | field (task : FieldTask)

def Leaf.key : Leaf → Text
  | typename key => key
  | field task => task.key

mutual

/-- The leaves of a step, in order. -/
def Step.leaves : Step → List Leaf
  | .typename key => [.typename key]
  | .field task => [.field task]
  | .splice plan => (plan ()).leaves
  | .narrow _ plan => (plan ()).leaves

def Plan.leaves : Plan → List Leaf
  | .done => []
  | .stop _ => []
  | .step s rest => s.leaves ++ rest.leaves

end

section Leaves

variable {field : FieldTask → Prop}

mutual

theorem Step.all_of_leaves : ∀ s : Step, s.IsComplete → (∀ t, .field t ∈ s.leaves → field t) →
    s.All field (fun _ => True) fun _ => False
  | .typename _, _, _ => trivial
  | .field t, _, hl => hl t (List.mem_singleton.mpr rfl)
  | .splice plan, hc, hl => Plan.all_of_leaves (plan ()) hc hl
  | .narrow _ plan, hc, hl => ⟨trivial, Plan.all_of_leaves (plan ()) hc.2 hl⟩

/-- In a plan that does not stop, every field is as asked if every leaf is. -/
theorem Plan.all_of_leaves : ∀ p : Plan, p.IsComplete → (∀ t, .field t ∈ p.leaves → field t) →
    p.All field (fun _ => True) fun _ => False
  | .done, _, _ => trivial
  | .stop _, hc, _ => hc
  | .step s rest, ⟨hs, hr⟩, hl =>
    ⟨Step.all_of_leaves s hs fun t ht => hl t (List.mem_append_left _ ht),
      Plan.all_of_leaves rest hr fun t ht => hl t (List.mem_append_right _ ht)⟩

end

end Leaves

theorem Plan.inOrder_step (h : Subject.Handlers σ) (concurrent : Bool) (first : Step)
    (rest : Plan) : ((Plan.step first rest).tasks h concurrent).inOrder =
      first.run h concurrent :: (rest.tasks h concurrent).inOrder := rfl

namespace Tasks

variable {P : Violation → Prop}

theorem raises_runInTurn {tasks : List (Run σ Outcome)} (h : ∀ x ∈ tasks, Raises P x)
    (merged : Keyed Value) : Raises P (runInTurn tasks merged) := by
  induction tasks generalizing merged with
  | nil => exact .pure _
  | cons x rest ih =>
    refine .bind (h x (by simp)) fun outcome => ?_
    cases outcome with
    | none => exact .pure _
    | some fields => exact ih (fun y hy => h y (List.mem_cons_of_mem _ hy)) _

theorem run_mapM_cons (x : Run σ Outcome) (rest : List (Run σ Outcome)) (s : Effects σ) :
    ((x :: rest).mapM ExceptT.run).run s =
      ((x.run.run s).1 :: ((rest.mapM ExceptT.run).run (x.run.run s).2).1,
        ((rest.mapM ExceptT.run).run (x.run.run s).2).2) := by
  rw [List.mapM_cons]
  rfl

theorem raises_of_mem_outcomes {tasks : List (Run σ Outcome)} (h : ∀ x ∈ tasks, Raises P x)
    (s : Effects σ) {v : Violation} (hv : .error v ∈ ((tasks.mapM ExceptT.run).run s).1) :
    P v := by
  induction tasks generalizing s with
  | nil => cases hv
  | cons x rest ih =>
    rw [run_mapM_cons] at hv
    rcases List.mem_cons.mp hv with hv | hv
    · exact h x (by simp) s v hv.symm
    · exact ih (fun y hy => h y (List.mem_cons_of_mem _ hy)) _ hv

theorem error_mem_of_merge {outcomes : List (Except Violation Outcome)} {merged : Keyed Value}
    {v : Violation} (h : merge outcomes merged = .error v) : .error v ∈ outcomes := by
  induction outcomes generalizing merged with
  | nil => cases h
  | cons outcome rest ih =>
    rcases outcome with v' | _ | fields
    · obtain rfl : v' = v := by simpa [merge] using h
      simp
    · cases h
    · exact List.mem_cons_of_mem _ (ih h)

theorem run_runSideBySide (tasks : Tasks σ) (s : Effects σ) :
    tasks.runSideBySide.run.run s =
      (match tasks.stop with
        | some v => .error v
        | none => merge ((tasks.inOrder.mapM ExceptT.run).run s).1 [],
        ((tasks.inOrder.mapM ExceptT.run).run s).2) := by
  obtain ⟨inOrder, stop⟩ := tasks
  cases stop <;> rfl

theorem raises_run {tasks : Tasks σ} (h : ∀ x ∈ tasks.inOrder, Raises P x)
    (hstop : ∀ v, tasks.stop = some v → P v) (concurrent : Bool) :
    Raises P (tasks.run concurrent) := by
  cases concurrent with
  | true =>
    intro s v hv
    rw [run, if_pos rfl, run_runSideBySide] at hv
    cases hs : tasks.stop with
    | some v' =>
      obtain rfl : v' = v := by simpa [hs] using hv
      exact hstop v' hs
    | none =>
      rw [hs] at hv
      exact raises_of_mem_outcomes h s (error_mem_of_merge hv)
  | false =>
    rw [run, if_neg (by simp)]
    cases hs : tasks.stop with
    | some v => exact .throw (hstop v hs)
    | none => exact raises_runInTurn h []

end Tasks

section

variable {P : Violation → Prop} {field : FieldTask → Prop} {narrow : Narrowing → Prop}
  {stop : Violation → Prop} {h : Subject.Handlers σ}

mutual

theorem Step.raises_run (hfield : ∀ t, field t → Raises (Raise.Breaks P) (h.field t))
    (hnarrow : ∀ n x, narrow n → h.into n.condition n.cursor = some x →
      Raises (Raise.Breaks P) x)
    (hstop : ∀ v, stop v → P v) (concurrent : Bool) :
    ∀ step : Step, step.All field narrow stop → Raises P (step.run h concurrent)
  | .typename _, _ => .pure _
  | .field task, ht => .bind (.captured (hfield task ht) _ _) fun _ => .pure _
  | .splice plan, hp => Plan.raises_run hfield hnarrow hstop concurrent (plan ()) hp
  | .narrow n plan, ⟨hn, hp⟩ => by
    have hplan := Plan.raises_run hfield hnarrow hstop concurrent (plan ()) hp
    unfold Step.run
    cases hx : h.into n.condition n.cursor with
    | none => exact .bind hplan fun _ => .pure _
    | some x => exact .bind (.captured (hnarrow n x hn hx) _ _) fun _ => .pure _

theorem Plan.raises_tasks (hfield : ∀ t, field t → Raises (Raise.Breaks P) (h.field t))
    (hnarrow : ∀ n x, narrow n → h.into n.condition n.cursor = some x →
      Raises (Raise.Breaks P) x)
    (hstop : ∀ v, stop v → P v) (concurrent : Bool) :
    ∀ plan : Plan, plan.All field narrow stop →
      (∀ x ∈ (plan.tasks h concurrent).inOrder, Raises P x) ∧
        ∀ v, (plan.tasks h concurrent).stop = some v → P v
  | .done, _ => ⟨fun _ hx => (List.not_mem_nil hx).elim, fun _ he => nomatch he⟩
  | .stop v, hv =>
    ⟨fun _ hx => (List.not_mem_nil hx).elim, fun _ he => Option.some.inj he ▸ hstop v hv⟩
  | .step s rest, ⟨hs, hr⟩ => by
    have hstep := Step.raises_run hfield hnarrow hstop concurrent s hs
    obtain ⟨htasks, hend⟩ := Plan.raises_tasks hfield hnarrow hstop concurrent rest hr
    refine ⟨fun x hx => ?_, hend⟩
    rcases List.mem_cons.mp hx with rfl | hx
    · exact hstep
    · exact htasks x hx

/-- What a plan raises is raised by one of its fields, by a change of type, or where it stops. -/
theorem Plan.raises_run (hfield : ∀ t, field t → Raises (Raise.Breaks P) (h.field t))
    (hnarrow : ∀ n x, narrow n → h.into n.condition n.cursor = some x →
      Raises (Raise.Breaks P) x)
    (hstop : ∀ v, stop v → P v) (concurrent : Bool) (plan : Plan)
    (hp : plan.All field narrow stop) :
    Raises P ((plan.tasks h concurrent).run concurrent) :=
  have htasks := Plan.raises_tasks hfield hnarrow hstop concurrent plan hp
  Tasks.raises_run htasks.1 htasks.2 concurrent

end

end

/-- Resolving selections on an object of a known type runs their plan. -/
theorem Cursor.resolveSelections_of_type {c : Cursor} {h : Subject.Handlers σ} {type : TypeDef}
    (ht : c.scope.schema.type? h.typeName = some type) (selections : SelectionSet) :
    c.resolveSelections h selections =
      (do
        let plan := Plan.ofSelectionSet ⟨type, h.objectName⟩ c selections
        return (← (plan.tasks h c.isConcurrent).run c.isConcurrent).toValue) := by
  unfold Cursor.resolveSelections Schema.requireType
  rw [ht]
  rfl

/-- How the fields of a value are resolved that leaves other types to the selections. -/
def Subject.Handlers.ofFields (typeName objectName : Text)
    (field : Text → FieldArguments → Cursor → Action σ) : Subject.Handlers σ :=
  ⟨typeName, objectName, fun t => (field t.name t.arguments t.cursor).run t.cursor, fun _ _ => none⟩

theorem Node.resolve_of_selections {typeName objectName : Text}
    {field : Text → FieldArguments → Cursor → Action σ} {c : Cursor} {selections : SelectionSet}
    (hsel : c.selections = some selections) :
    (Node.mk typeName objectName field (fun _ => .none) .none).resolve c =
      (c.resolveSelections (.ofFields typeName objectName field) selections).toResolve := by
  unfold Node.resolve
  simp only [Override.run?, hsel]
  rfl

end GraphQL
