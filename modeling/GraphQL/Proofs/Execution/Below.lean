import GraphQL.Proofs.Execution.Driven
import GraphQL.Proofs.Execution.ErrorPaths
import GraphQL.Proofs.Execution.Reached

/-! What is recorded while something is resolved, lies at its place or below it. No resolver reaches
out of its field, whatever it resolves and however that is resolved in turn, and in whatever order
tasks that run side by side take their steps. Nothing that has been recorded is taken back. -/

namespace GraphQL

variable {σ : Type}

/-- At the place of a cursor or below it. -/
def ExecutionError.IsBelow (c : Cursor) (e : ExecutionError) : Prop := c.path.segments <+: e.path

/-- The place of a cursor is that of another one or above it. -/
def Cursor.IsAbove (c below : Cursor) : Prop := c.path.segments <+: below.path.segments

theorem ExecutionError.IsBelow.of_isAbove {c below : Cursor} (h : c.IsAbove below)
    {e : ExecutionError} (he : e.IsBelow below) : e.IsBelow c := h.trans he

theorem Cursor.segments_atField {c below : Cursor} {field : SelectedField}
    {selections : Option SelectionSet} (h : c.atField field selections = .ok below) :
    below.path.segments = c.path.segments ++ [.key field.head.responseName] := by
  obtain ⟨_, -, rfl⟩ := exists_of_atField h
  rfl

theorem Cursor.isAbove_atIndex (c : Cursor) (i : Nat) : c.IsAbove (c.atIndex i) :=
  ⟨[.index i], rfl⟩

namespace Plan

variable {subject : Subject} {expand : Expand} {base : Cursor}

mutual

theorem isAbove_ofSelection (hexpand : ∀ c f, base.IsAbove c →
      ∀ below ∈ (expand c f).cursors, base.IsAbove below) :
    ∀ (x : Selection) (c : Cursor), base.IsAbove c →
      ∀ s, ofSelection subject expand c x = .ok (some s) → ∀ below ∈ s.cursors, base.IsAbove below
  | .field head body, c, hc, s, hx, below, hbelow => by
    obtain ⟨-, hfield⟩ := ofField_of_ofSelection hx
    rcases ofField_cases_of_ok hfield with ⟨-, rfl⟩ | ⟨declaration, task, -, htask, rfl⟩
    · simp [Step.cursors] at hbelow
    · obtain rfl : below = task := by simpa [Step.cursors] using hbelow
      exact hc.trans ⟨_, (Cursor.segments_atField htask).symm⟩
  | .spread sp, c, hc, s, hx, below, hbelow => by
    obtain ⟨f, -, rfl⟩ := spreadOn_of_ofSelection hx
    exact hexpand c f hc below hbelow
  | .inline head body, c, hc, s, hx, below, hbelow => by
    obtain ⟨-, rfl⟩ := entersInline_of_ofSelection hx
    rcases Step.mem_cursors_ofInline hbelow with rfl | hbelow
    · exact hc
    · exact isAbove_ofSelections hexpand body (c.atInline head.condition body) hc below hbelow

theorem isAbove_ofSelections (hexpand : ∀ c f, base.IsAbove c →
      ∀ below ∈ (expand c f).cursors, base.IsAbove below) :
    ∀ (xs : List Selection) (c : Cursor), base.IsAbove c →
      ∀ below ∈ (ofSelections subject expand c xs).cursors, base.IsAbove below
  | [], _, _, below, hbelow => by simp [ofSelections, cursors] at hbelow
  | x :: rest, c, hc, below, hbelow => by
    have hrest := isAbove_ofSelections hexpand rest c hc
    unfold ofSelections at hbelow
    rcases hx : ofSelection subject expand c x with v | _ | s
    all_goals rw [hx] at hbelow
    · simp [cursors] at hbelow
    · exact hrest below hbelow
    · rcases List.mem_append.mp hbelow with hbelow | hbelow
      · exact isAbove_ofSelection hexpand x c hc s hx below hbelow
      · exact hrest below hbelow

end

theorem isAbove_expandUpTo (depth : Nat) : ∀ c f, base.IsAbove c →
    ∀ below ∈ (expandUpTo subject depth c f).cursors, base.IsAbove below := by
  induction depth with
  | zero => simp [expandUpTo, cursors]
  | succ depth ih => exact fun c f => isAbove_ofSelections ih f.selections c

/-- A plan hands on cursors at its own place and below. -/
theorem isAbove_ofSelectionSet (subject : Subject) (c : Cursor) (xs : SelectionSet) :
    ∀ below ∈ (ofSelectionSet subject c xs).cursors, c.IsAbove below :=
  isAbove_ofSelections (isAbove_expandUpTo _) xs c List.prefix_rfl

end Plan

/-- What is recorded at the place of a cursor, is recorded below it. -/
theorem Effects.adds_record (c : Cursor) (location : Position) (e : FieldError) (s : Effects σ) :
    s.Adds (ExecutionError.IsBelow c) (s.record c location e) :=
  .record s c location List.prefix_rfl

namespace Job

variable {P : ExecutionError → Prop}

/-- A job whose acts add only errors with a property. -/
inductive AddsOnly (P : ExecutionError → Prop) : Job σ → Prop where
  | finish (r : Ending) : AddsOnly P (.finish r)
  | act {f : Effects σ → Effects σ} {next : Effects σ → Job σ}
      (h : ∀ s : Effects σ, s.Adds P (f s)) (hnext : ∀ s, AddsOnly P (next s)) :
      AddsOnly P (.act f next)
  | mark (m : Mark) {next : Job σ} (h : AddsOnly P next) : AddsOnly P (.mark m next)
  | fork {concurrent : Bool} {stop : Option Violation} {tasks : List (Job σ)}
      {next : Except Violation Outcome → Job σ} (htasks : ∀ p ∈ tasks, AddsOnly P p)
      (hnext : ∀ x, AddsOnly P (next x)) : AddsOnly P (.fork concurrent stop tasks next)

namespace AddsOnly

variable {Q : ExecutionError → Prop} {p p' : Job σ} {c below : Cursor}

theorem mono (hp : AddsOnly P p) (hpq : ∀ e, P e → Q e) : AddsOnly Q p := by
  induction hp with
  | finish r => exact .finish r
  | act h _ ih => exact .act (fun s => (h s).mono hpq) ih
  | mark m _ ih => exact .mark m ih
  | fork _ _ htasks hnext => exact .fork htasks hnext

theorem andThen (hp : AddsOnly P p) {k : Ending → Job σ} (hk : ∀ r, AddsOnly P (k r)) :
    AddsOnly P (p.andThen k) := by
  induction hp with
  | finish r => exact hk r
  | act h _ ih => exact .act h ih
  | mark m _ ih => exact .mark m ih
  | fork htasks _ _ ih => exact .fork htasks ih

theorem bind (hp : AddsOnly P p) {k : Value → Job σ} (hk : ∀ v, AddsOnly P (k v)) :
    AddsOnly P (p.bind k) := by
  refine hp.andThen fun r => ?_
  cases r with
  | ok v => exact hk v
  | error r => exact .finish _

theorem during (hp : AddsOnly P p) (call : Call) : AddsOnly P (p.during call) :=
  .mark _ (hp.andThen fun r => .mark _ (.finish r))

/-- A failure is recorded at the place where it is captured. -/
theorem captured (hc : c.IsAbove below) (hp : AddsOnly (ExecutionError.IsBelow below) p)
    (location : Position) : AddsOnly (ExecutionError.IsBelow c) (p.captured below location) := by
  have habove : ∀ e : ExecutionError, e.IsBelow below → e.IsBelow c := fun _ => .of_isAbove hc
  refine (hp.mono habove).andThen fun r => ?_
  rcases r with (e | v) | v
  · exact .act (fun s => (s.adds_record below location e).mono habove) fun _ => .finish _
  · exact .finish _
  · exact .finish _

/-- A task of a fork may be put in place of another. -/
theorem replace {concurrent : Bool} {stop : Option Violation} {before after : List (Job σ)}
    {next : Except Violation Outcome → Job σ}
    (h : AddsOnly P (Job.fork concurrent stop (before ++ p :: after) next)) :
    AddsOnly P p ∧ ∀ p', AddsOnly P p' →
      AddsOnly P (Job.fork concurrent stop (before ++ p' :: after) next) := by
  cases h with
  | fork htasks hnext =>
    obtain ⟨hbefore, htasks⟩ := List.forall_mem_append.mp htasks
    obtain ⟨hp, hafter⟩ := List.forall_mem_cons.mp htasks
    refine ⟨hp, fun p' hp' => .fork ?_ hnext⟩
    exact List.forall_mem_append.mpr ⟨hbefore, List.forall_mem_cons.mpr ⟨hp', hafter⟩⟩

theorem step {s t : Effects σ} {ms : List Mark} (h : Step p s ms p' t) :
    AddsOnly P p → AddsOnly P p' ∧ s.Adds P t := by
  induction h with
  | act f next s =>
    intro hp
    cases hp with
    | act hf hnext => exact ⟨hnext _, hf s⟩
  | mark m next s =>
    intro hp
    cases hp with
    | mark _ h => exact ⟨h, .refl s⟩
  | side _ ih | turn _ _ ih =>
    intro hp
    obtain ⟨htask, hreplace⟩ := hp.replace
    obtain ⟨htask', hadds⟩ := ih htask
    exact ⟨hreplace _ htask', hadds⟩
  | join | stop | decide =>
    intro hp
    cases hp with
    | fork _ hnext => exact ⟨hnext _, .refl _⟩

theorem runs {s t : Effects σ} {ms : List Mark} {r : Ending} (hp : AddsOnly P p)
    (h : Runs p s ms r t) : s.Adds P t := by
  induction h with
  | finish => exact .refl _
  | step hstep _ ih =>
    obtain ⟨hp', hadds⟩ := hp.step hstep
    exact hadds.trans (ih hp')

end AddsOnly

end Job

section Plans

variable {h : Job.Handlers σ} {concurrent : Bool} {base : Cursor}

mutual

theorem Step.addsOnly_job
    (hfield : ∀ t : FieldTask, (h.field t).AddsOnly (ExecutionError.IsBelow t.cursor))
    (hinto : ∀ condition c p, h.into condition c = some p →
      p.AddsOnly (ExecutionError.IsBelow c)) :
    ∀ s : Step, (∀ c ∈ s.cursors, base.IsAbove c) →
      (s.job h concurrent).AddsOnly (ExecutionError.IsBelow base)
  | .typename _, _ => .finish _
  | .field t, hs =>
    (((hfield t).during (.field t)).captured (hs _ (List.mem_singleton.mpr rfl)) t.location).bind
      fun _ => .finish _
  | .splice plan, hs => .fork (Plan.addsOnly_jobs hfield hinto (plan ()) hs) fun _ => .finish _
  | .narrow n plan, hs => by
    obtain ⟨hn, hplan⟩ := List.forall_mem_cons.mp hs
    unfold Step.job
    cases hx : h.into n.condition n.cursor with
    | none =>
      have htasks := Plan.addsOnly_jobs hfield hinto (plan ()) hplan
      exact .bind (.fork htasks fun _ => .finish _) fun _ => .finish _
    | some p =>
      have hp := (hinto _ _ p hx).during (.into n)
      exact (hp.captured hn n.location).bind fun _ => .finish _

/-- What the jobs of a plan add lies below a cursor, if all that the plan hands on do. -/
theorem Plan.addsOnly_jobs
    (hfield : ∀ t : FieldTask, (h.field t).AddsOnly (ExecutionError.IsBelow t.cursor))
    (hinto : ∀ condition c p, h.into condition c = some p →
      p.AddsOnly (ExecutionError.IsBelow c)) :
    ∀ plan : Plan, (∀ c ∈ plan.cursors, base.IsAbove c) →
      ∀ p ∈ plan.jobs h concurrent, p.AddsOnly (ExecutionError.IsBelow base)
  | .done, _, _, hp => (List.not_mem_nil hp).elim
  | .stop _, _, _, hp => (List.not_mem_nil hp).elim
  | .step s rest, hplan, p, hp => by
    obtain ⟨hs, hrest⟩ := List.forall_mem_append.mp hplan
    rcases List.mem_cons.mp hp with rfl | hp
    · exact Step.addsOnly_job hfield hinto s hs
    · exact Plan.addsOnly_jobs hfield hinto rest hrest p hp

end

end Plans

mutual

/-- Whatever order its tasks take steps in, resolving a value adds errors at its place or below. -/
theorem Node.addsOnly_job : ∀ (node : Node σ) (c : Cursor),
    (node.job c).AddsOnly (ExecutionError.IsBelow c)
  | .mk typeName objectName field into whole, c => by
    unfold Node.job
    cases hwhole : whole.job? c with
    | some p => exact (Override.addsOnly_job whole c p hwhole).during (.whole c)
    | none =>
      cases c.selections with
      | none => exact .finish _
      | some selections =>
        cases c.scope.schema.requireType typeName with
        | error v => exact .finish _
        | ok type =>
          refine .fork (Plan.addsOnly_jobs ?_ ?_ (.ofSelectionSet ⟨type, objectName⟩ c selections)
            (Plan.isAbove_ofSelectionSet ⟨type, objectName⟩ c selections)) fun _ => .finish _
          · exact fun t => Action.addsOnly_job (field t.name t.arguments t.cursor) t.cursor
          · exact fun condition c p hp => Override.addsOnly_job (into condition) c p hp

theorem Override.addsOnly_job : ∀ (o : Override σ) (c : Cursor) (p : Job σ),
    o.job? c = some p → p.AddsOnly (ExecutionError.IsBelow c)
  | .none, _, _, h => nomatch h
  | .custom f, c, p, h => by
    obtain rfl : (f c).job c = p := Option.some.inj h
    exact Action.addsOnly_job (f c) c

theorem Action.addsOnly_job : ∀ (a : Action σ) (c : Cursor),
    (a.job c).AddsOnly (ExecutionError.IsBelow c)
  | .value v, _ => .finish _
  | .fail e, _ => .finish _
  | .violate v, _ => .finish _
  | .report e location next, c =>
    .act (fun s => s.adds_record c (location.getD c.location) e) fun _ => Action.addsOnly_job next c
  | .update _ next, c => .act (fun _ => .of_eq rfl) fun s => Action.addsOnly_job (next s.world) c
  | .resolve node next, c =>
    (addsOnly_ofPresent node c).bind fun v => Action.addsOnly_job (next v) c
  | .resolveInto node next, c =>
    ((Node.addsOnly_job node c).captured List.prefix_rfl c.location).bind fun v =>
      Action.addsOnly_job (next v) c
  | .resolveList nodes next, c => by
    unfold Action.job
    cases c.currentType.element? with
    | none => exact .finish _
    | some element =>
      exact (addsOnly_ofItems element.isNonNull nodes 0 c).bind fun v =>
        Action.addsOnly_job (next v) c

theorem addsOnly_ofPresent : ∀ (node : Option (Node σ)) (c : Cursor),
    (Job.ofPresent node c).AddsOnly (ExecutionError.IsBelow c)
  | none, _ => .finish _
  | some node, c => Node.addsOnly_job node c

theorem addsOnly_ofItem : ∀ (node : Option (Node σ)) (c : Cursor),
    (Job.ofItem node c).AddsOnly (ExecutionError.IsBelow c)
  | none, _ => .finish _
  | some node, c => (Node.addsOnly_job node c).captured List.prefix_rfl c.location

theorem addsOnly_ofItems (stopOnNull : Bool) : ∀ (nodes : List (Option (Node σ))) (i : Nat)
    (c : Cursor), (Job.ofItems stopOnNull nodes i c).AddsOnly (ExecutionError.IsBelow c)
  | [], _, _ => .finish _
  | node :: rest, i, c => by
    have hitem : (Job.ofItem node (c.atIndex i)).AddsOnly (ExecutionError.IsBelow c) :=
      (addsOnly_ofItem node (c.atIndex i)).mono fun _ => .of_isAbove (c.isAbove_atIndex i)
    unfold Job.ofItems
    refine hitem.bind fun v => ?_
    split
    · exact .finish _
    · exact (addsOnly_ofItems stopOnNull rest (i + 1) c).bind fun _ => .finish _

end

/-- Whatever a computation records is at or below a cursor. -/
def RecordsBelow {ε α : Type} (c : Cursor) (x : ExceptT ε (StateM (Effects σ)) α) : Prop :=
  ∀ s, Records (ExecutionError.IsBelow c) x s

/-- A run of a job records no more than the job adds. -/
theorem Job.Follows.recordsBelow {p : Job σ} {x : Resolve σ Value} {c : Cursor} (hx : p.Follows x)
    (hp : p.AddsOnly (ExecutionError.IsBelow c)) : RecordsBelow c x := by
  intro s e he
  obtain ⟨ms, hruns⟩ := hx s
  obtain ⟨new, hnew, hbelow⟩ := hp.runs hruns
  rw [hnew] at he
  exact (List.mem_append.mp he).imp_right (hbelow e)

theorem Action.recordsBelow (a : Action σ) (c : Cursor) : RecordsBelow c (a.run c) :=
  (Action.follows a c).recordsBelow (Action.addsOnly_job a c)

end GraphQL
