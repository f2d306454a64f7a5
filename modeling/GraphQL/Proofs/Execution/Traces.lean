import GraphQL.Proofs.Execution.Jobs

/-! The marks that a job leaves on its way to its end, whatever others do to the state meanwhile and
what holds of them for resolvers of any kind. In particular a job leaves whatever it enters, also
where its tasks run side by side and one of them nulls the object early. -/

namespace GraphQL

variable {σ : Type}

namespace Job

mutual

/-- The marks of a job that comes to its end, whatever others do to the state meanwhile. Those of
tasks side by side come in any order. -/
inductive Traces : Job σ → List Mark → Ending → Prop where
  | finish (r : Ending) : Traces (finish r) [] r
  | act {f : Effects σ → Effects σ} {next : Effects σ → Job σ} (s : Effects σ) {ms : List Mark}
      {r : Ending} (h : Traces (next s) ms r) : Traces (act f next) ms r
  | mark (m : Mark) {next : Job σ} {ms : List Mark} {r : Ending} (h : Traces next ms r) :
      Traces (mark m next) (m :: ms) r
  | fork {concurrent : Bool} {stop : Option Violation} {tasks : List (Job σ)}
      {next : Except Violation Outcome → Job σ} {ms ms' : List Mark} {x : Except Violation Outcome}
      {r : Ending} (h : TracesAll concurrent tasks ms) (hnext : Traces (next x) ms' r) :
      Traces (fork concurrent stop tasks next) (ms ++ ms') r
  | stopped {v : Violation} {tasks : List (Job σ)} {next : Except Violation Outcome → Job σ}
      {ms : List Mark} {r : Ending} (h : Traces (next (.error v)) ms r) :
      Traces (fork false (some v) tasks next) ms r

inductive TracesAll : Bool → List (Job σ) → List Mark → Prop where
  | nil (concurrent : Bool) : TracesAll concurrent [] []
  | cons {concurrent : Bool} {p : Job σ} {rest : List (Job σ)} {ms ms₁ ms₂ : List Mark} {r : Ending}
      (h : Traces p ms₁ r) (hrest : TracesAll concurrent rest ms₂) (hms : ms.Perm (ms₁ ++ ms₂)) :
      TracesAll concurrent (p :: rest) ms
  /-- In turn, what follows a task that decides never runs. -/
  | decide {p : Job σ} {ms : List Mark} {r : Ending} (h : Traces p ms r)
      (decides : r.continues = false) (rest : List (Job σ)) : TracesAll false (p :: rest) ms

end

theorem traces_finish_iff {r r' : Ending} {ms : List Mark} :
    Traces (finish r : Job σ) ms r' ↔ ms = [] ∧ r' = r := by
  constructor
  · intro h
    cases h
    exact ⟨rfl, rfl⟩
  · rintro ⟨rfl, rfl⟩
    exact .finish r'

theorem tracesAll_finished (concurrent : Bool) (endings : List Ending) :
    TracesAll concurrent (endings.map finish : List (Job σ)) [] := by
  induction endings with
  | nil => exact .nil concurrent
  | cons r endings ih => exact .cons (.finish r) ih (.refl _)

section Steps

variable {p p' : Job σ} {after : List (Job σ)} {ms ms' : List Mark}

theorem TracesAll.side (hp : ∀ ms' r, Traces p' ms' r → Traces p (ms ++ ms') r)
    {before : List (Job σ)} (h : TracesAll true (before ++ p' :: after) ms') :
    TracesAll true (before ++ p :: after) (ms ++ ms') := by
  induction before generalizing ms' with
  | nil =>
    cases h with
    | cons h hrest hms =>
      refine .cons (hp _ _ h) hrest ?_
      rw [List.append_assoc]
      exact hms.append_left ms
  | cons q before ih =>
    cases h with
    | cons h hrest hms =>
      exact .cons h (ih hrest) ((hms.append_left ms).trans (List.perm_append_comm_assoc _ _ _))

theorem TracesAll.turn (hp : ∀ ms' r, Traces p' ms' r → Traces p (ms ++ ms') r)
    {given : List Ending} (continues : ∀ r ∈ given, r.continues = true)
    (h : TracesAll false (given.map Job.finish ++ p' :: after) ms') :
    TracesAll false (given.map Job.finish ++ p :: after) (ms ++ ms') := by
  induction given generalizing ms' with
  | nil =>
    cases h with
    | cons h hrest hms =>
      refine .cons (hp _ _ h) hrest ?_
      rw [List.append_assoc]
      exact hms.append_left ms
    | decide h decides => exact .decide (hp _ _ h) decides after
  | cons q given ih =>
    have hgiven : ∀ r ∈ given, r.continues = true :=
      fun r hr => continues r (List.mem_cons_of_mem _ hr)
    cases h with
    | cons h hrest hms =>
      exact .cons h (ih hgiven hrest)
        ((hms.append_left ms).trans (List.perm_append_comm_assoc _ _ _))
    | decide h decides =>
      obtain ⟨-, rfl⟩ := traces_finish_iff.mp h
      exact absurd (continues _ List.mem_cons_self) (by simp [decides])

/-- A step comes before what a job does from there. -/
theorem Step.traces {s s' : Effects σ} (h : Step p s ms p' s') :
    ∀ ms' r, Traces p' ms' r → Traces p (ms ++ ms') r := by
  induction h with
  | act f next s => exact fun _ _ h => .act (f s) h
  | mark m next s => exact fun _ _ h => .mark m h
  | side _ ih =>
    intro ms' r h
    cases h with
    | fork h hnext =>
      rw [← List.append_assoc]
      exact .fork (h.side ih) hnext
  | turn continues _ ih =>
    intro ms' r h
    cases h with
    | fork h hnext =>
      rw [← List.append_assoc]
      exact .fork (h.turn ih continues) hnext
  | join concurrent stop endings next s =>
    exact fun _ _ h => .fork (tracesAll_finished concurrent endings) h
  | stop v tasks next s => exact fun _ _ h => .stopped h
  | @decide given r after next s continues decides =>
    intro ms' r' h
    have hall : TracesAll false (given.map finish ++ finish r :: after) [] := by
      clear continues h
      induction given with
      | nil => exact .decide (.finish r) decides after
      | cons q given ih => exact .cons (.finish q) ih (.refl _)
    exact .fork hall h

theorem Runs.traces {s s' : Effects σ} {r : Ending} (h : Runs p s ms r s') : Traces p ms r := by
  induction h with
  | finish r => exact .finish r
  | step hstep _ ih => exact hstep.traces _ _ ih

theorem Traces.of_andThen : ∀ {p : Job σ} {k : Ending → Job σ} {ms : List Mark} {r : Ending},
    Traces (p.andThen k) ms r →
      ∃ ms₁ r₁ ms₂, ms = ms₁ ++ ms₂ ∧ Traces p ms₁ r₁ ∧ Traces (k r₁) ms₂ r
  | .finish r₁, _, ms, _, h => ⟨[], r₁, ms, rfl, .finish r₁, h⟩
  | .act f next, _, _, _, h => by
    cases h with
    | act s h =>
      obtain ⟨ms₁, r₁, ms₂, rfl, hp, hk⟩ := Traces.of_andThen h
      exact ⟨ms₁, r₁, ms₂, rfl, .act s hp, hk⟩
  | .mark m next, _, _, _, h => by
    cases h with
    | mark _ h =>
      obtain ⟨ms₁, r₁, ms₂, rfl, hp, hk⟩ := Traces.of_andThen h
      exact ⟨m :: ms₁, r₁, ms₂, rfl, .mark m hp, hk⟩
  | .fork concurrent stop tasks next, _, _, _, h => by
    cases h with
    | fork hall h =>
      obtain ⟨ms₁, r₁, ms₂, rfl, hp, hk⟩ := Traces.of_andThen h
      exact ⟨_ ++ ms₁, r₁, ms₂, (List.append_assoc _ _ _).symm, .fork hall hp, hk⟩
    | stopped h =>
      obtain ⟨ms₁, r₁, ms₂, rfl, hp, hk⟩ := Traces.of_andThen h
      exact ⟨ms₁, r₁, ms₂, rfl, .stopped hp, hk⟩

end Steps

end Job

/-- A property of marks that is kept when runs are put together, in any order of their marks, and
when calls of a kind are put around them. -/
structure Mark.Law (call : Call → Prop) (P : List Mark → Prop) : Prop where
  nil : P []
  append : ∀ {ms ms' : List Mark}, P ms → P ms' → P (ms ++ ms')
  perm : ∀ {ms ms' : List Mark}, P ms → ms'.Perm ms → P ms'
  during : ∀ {c : Call} {ms : List Mark}, call c → P ms →
    P (.enter c :: (ms ++ [.leave c]))

/-- Every job that comes to its end has marks with a property. -/
def Job.Keeps (P : List Mark → Prop) (p : Job σ) : Prop := ∀ ms r, Traces p ms r → P ms

namespace Job.Keeps

variable {call : Call → Prop} {P : List Mark → Prop} {p : Job σ}

theorem finish (law : Mark.Law call P) (r : Ending) : (Job.finish r : Job σ).Keeps P := by
  intro ms r' h
  obtain ⟨rfl, -⟩ := traces_finish_iff.mp h
  exact law.nil

theorem act {f : Effects σ → Effects σ} {next : Effects σ → Job σ} (h : ∀ s, (next s).Keeps P) :
    (Job.act f next).Keeps P := by
  intro ms r htraces
  cases htraces with
  | act s htraces => exact h s ms r htraces

theorem andThen (law : Mark.Law call P) (hp : p.Keeps P) {k : Ending → Job σ}
    (hk : ∀ r, (k r).Keeps P) : (p.andThen k).Keeps P := by
  intro ms r h
  obtain ⟨ms₁, r₁, ms₂, rfl, h₁, h₂⟩ := h.of_andThen
  exact law.append (hp ms₁ r₁ h₁) (hk r₁ ms₂ r h₂)

theorem bind (law : Mark.Law call P) (hp : p.Keeps P) {k : Value → Job σ}
    (hk : ∀ v, (k v).Keeps P) : (p.bind k).Keeps P := by
  apply hp.andThen law
  intro r
  cases r with
  | ok v => exact hk v
  | error r => exact finish law _

theorem captured (law : Mark.Law call P) (hp : p.Keeps P) (c : Cursor) (location : Position) :
    (p.captured c location).Keeps P := by
  apply hp.andThen law
  intro r
  rcases r with (e | v) | v
  · exact .act fun _ => finish law _
  · exact finish law _
  · exact finish law _

theorem during (law : Mark.Law call P) (hp : p.Keeps P) {c : Call} (hc : call c) :
    (p.during c).Keeps P := by
  intro ms r h
  unfold Job.during at h
  cases h with
  | mark _ h =>
    obtain ⟨ms₁, r₁, ms₂, rfl, h₁, h₂⟩ := h.of_andThen
    cases h₂ with
    | mark _ h₂ =>
      obtain ⟨rfl, -⟩ := traces_finish_iff.mp h₂
      exact law.during hc (hp ms₁ r₁ h₁)

theorem tracesAll (law : Mark.Law call P) {concurrent : Bool} {tasks : List (Job σ)}
    {ms : List Mark} (htasks : ∀ p ∈ tasks, p.Keeps P) (h : TracesAll concurrent tasks ms) :
    P ms := by
  induction tasks generalizing ms with
  | nil =>
    cases h
    exact law.nil
  | cons p rest ih =>
    have hp := htasks p List.mem_cons_self
    have hrest : ∀ q ∈ rest, q.Keeps P := fun q hq => htasks q (List.mem_cons_of_mem _ hq)
    cases h with
    | cons h hall hms => exact law.perm (law.append (hp _ _ h) (ih hrest hall)) hms
    | decide h => exact hp _ _ h

theorem fork (law : Mark.Law call P) {concurrent : Bool} {stop : Option Violation}
    {tasks : List (Job σ)} {next : Except Violation Outcome → Job σ}
    (htasks : ∀ p ∈ tasks, p.Keeps P) (hnext : ∀ x, (next x).Keeps P) :
    (Job.fork concurrent stop tasks next).Keeps P := by
  intro ms r h
  cases h with
  | fork hall h => exact law.append (tracesAll law htasks hall) (hnext _ _ _ h)
  | stopped h => exact hnext _ _ _ h

end Job.Keeps

/-- A property of cursors that is kept wherever resolvers go on from one, such that the calls made
there are of a kind. -/
structure Cursor.Law (place : Cursor → Prop) (call : Call → Prop) : Prop where
  whole : ∀ c, place c → call (.whole c)
  atIndex : ∀ c i, place c → place (c.atIndex i)
  plan : ∀ c selections typeName objectName type, place c → c.selections = some selections →
    c.scope.schema.requireType typeName = .ok type →
    (Plan.ofSelectionSet ⟨type, objectName⟩ c selections).All
      (fun t => call (.field t) ∧ place t.cursor) (fun n => call (.into n) ∧ place n.cursor)
      fun _ => True

section Plans

variable {call : Call → Prop} {P : List Mark → Prop} {place : Cursor → Prop} {h : Job.Handlers σ}

mutual

theorem Step.keeps_job (law : Mark.Law call P)
    (hfield : ∀ t, place t.cursor → (h.field t).Keeps P)
    (hinto : ∀ condition c p, place c → h.into condition c = some p → p.Keeps P)
    (concurrent : Bool) : ∀ s : Step,
      s.All (fun t => call (.field t) ∧ place t.cursor) (fun n => call (.into n) ∧ place n.cursor)
        (fun _ => True) → (s.job h concurrent).Keeps P
  | .typename _, _ => .finish law _
  | .field t, hs =>
    (((hfield t hs.2).during law hs.1).captured law _ _).bind law fun _ => .finish law _
  | .splice plan, hs =>
    .fork law (Plan.keeps_jobs law hfield hinto concurrent (plan ()) hs) fun _ => .finish law _
  | .narrow n plan, hs => by
    have htasks := Plan.keeps_jobs law hfield hinto concurrent (plan ()) hs.2
    unfold Step.job
    cases hn : h.into n.condition n.cursor with
    | some p =>
      have hp := hinto _ _ p hs.1.2 hn
      exact ((hp.during law hs.1.1).captured law _ _).bind law fun _ => .finish law _
    | none =>
      exact (Job.Keeps.fork law htasks fun _ => .finish law _).bind law fun _ => .finish law _

theorem Plan.keeps_jobs (law : Mark.Law call P)
    (hfield : ∀ t, place t.cursor → (h.field t).Keeps P)
    (hinto : ∀ condition c p, place c → h.into condition c = some p → p.Keeps P)
    (concurrent : Bool) : ∀ plan : Plan,
      plan.All (fun t => call (.field t) ∧ place t.cursor)
        (fun n => call (.into n) ∧ place n.cursor) (fun _ => True) →
      ∀ p ∈ plan.jobs h concurrent, p.Keeps P
  | .done, _, _, hp => (List.not_mem_nil hp).elim
  | .stop _, _, _, hp => (List.not_mem_nil hp).elim
  | .step s rest, hplan, p, hp => by
    have hs := Step.keeps_job law hfield hinto concurrent s hplan.1
    rcases List.mem_cons.mp hp with rfl | hp
    · exact hs
    · exact Plan.keeps_jobs law hfield hinto concurrent rest hplan.2 p hp

end

end Plans

section Resolvers

variable {call : Call → Prop} {P : List Mark → Prop} {place : Cursor → Prop}

mutual

theorem Node.keeps_job (law : Mark.Law call P) (hplace : Cursor.Law place call) :
    ∀ (node : Node σ) (c : Cursor), place c → (node.job c).Keeps P
  | .mk typeName objectName field into whole, c, hc => by
    unfold Node.job
    cases hw : whole.job? c with
    | some p =>
      exact (Override.keeps_job law hplace whole c p hc hw).during law (hplace.whole c hc)
    | none =>
      cases hselections : c.selections with
      | none => exact .finish law _
      | some selections =>
        cases htype : c.scope.schema.requireType typeName with
        | error v => exact .finish law _
        | ok type =>
          have hplan := hplace.plan c selections typeName objectName type hc hselections htype
          exact .fork law (Plan.keeps_jobs law
            (fun t ht => Action.keeps_job law hplace (field t.name t.arguments t.cursor) _ ht)
            (fun condition c p hc hp => Override.keeps_job law hplace (into condition) c p hc hp)
            c.isConcurrent _ hplan) fun _ => .finish law _

theorem Override.keeps_job (law : Mark.Law call P) (hplace : Cursor.Law place call) :
    ∀ (o : Override σ) (c : Cursor) (p : Job σ), place c → o.job? c = some p → p.Keeps P
  | .none, _, _, _, h => nomatch h
  | .custom f, c, p, hc, h => by
    have hp : (f c).job c = p := Option.some.inj h
    rw [← hp]
    exact Action.keeps_job law hplace (f c) c hc

/-- What holds of the calls that are made from a place on holds of the marks of resolvers there. -/
theorem Action.keeps_job (law : Mark.Law call P) (hplace : Cursor.Law place call) :
    ∀ (a : Action σ) (c : Cursor), place c → (a.job c).Keeps P
  | .value _, _, _ => .finish law _
  | .fail _, _, _ => .finish law _
  | .violate _, _, _ => .finish law _
  | .report _ _ next, c, hc => .act fun _ => Action.keeps_job law hplace next c hc
  | .update _ next, c, hc => .act fun s => Action.keeps_job law hplace (next s.world) c hc
  | .resolve node next, c, hc =>
    (keeps_ofPresent law hplace node c hc).bind law fun v =>
      Action.keeps_job law hplace (next v) c hc
  | .resolveInto node next, c, hc =>
    ((Node.keeps_job law hplace node c hc).captured law _ _).bind law fun v =>
      Action.keeps_job law hplace (next v) c hc
  | .resolveList nodes next, c, hc => by
    unfold Action.job
    cases c.currentType.element? with
    | none => exact .finish law _
    | some element =>
      exact (keeps_ofItems law hplace element.isNonNull nodes 0 c hc).bind law fun v =>
        Action.keeps_job law hplace (next v) c hc

theorem keeps_ofPresent (law : Mark.Law call P) (hplace : Cursor.Law place call) :
    ∀ (node : Option (Node σ)) (c : Cursor), place c → (Job.ofPresent node c).Keeps P
  | none, _, _ => .finish law _
  | some node, c, hc => Node.keeps_job law hplace node c hc

theorem keeps_ofItem (law : Mark.Law call P) (hplace : Cursor.Law place call) :
    ∀ (node : Option (Node σ)) (c : Cursor), place c → (Job.ofItem node c).Keeps P
  | none, _, _ => .finish law _
  | some node, c, hc => (Node.keeps_job law hplace node c hc).captured law _ _

theorem keeps_ofItems (law : Mark.Law call P) (hplace : Cursor.Law place call)
    (stopOnNull : Bool) : ∀ (nodes : List (Option (Node σ))) (i : Nat) (c : Cursor), place c →
      (Job.ofItems stopOnNull nodes i c).Keeps P
  | [], _, _, _ => .finish law _
  | node :: rest, i, c, hc => by
    have hitem := keeps_ofItem law hplace node (c.atIndex i) (hplace.atIndex c i hc)
    apply hitem.bind law
    intro v
    split
    · exact .finish law _
    · exact (keeps_ofItems law hplace stopOnNull rest (i + 1) c hc).bind law fun _ =>
        .finish law _

end

end Resolvers

namespace Mark

def entered? : Mark → Option Call
  | enter call => some call
  | leave _ => none

def left? : Mark → Option Call
  | enter _ => none
  | leave call => some call

/-- Each call is left as often as it is entered. -/
def Balanced (ms : List Mark) : Prop := (ms.filterMap entered?).Perm (ms.filterMap left?)

theorem Balanced.nil : Balanced [] := .refl _

theorem Balanced.append {ms ms' : List Mark} (h : Balanced ms) (h' : Balanced ms') :
    Balanced (ms ++ ms') := by
  unfold Balanced
  rw [List.filterMap_append, List.filterMap_append]
  exact List.Perm.append h h'

theorem Balanced.perm {ms ms' : List Mark} (h : Balanced ms) (hp : ms'.Perm ms) : Balanced ms' :=
  ((hp.filterMap entered?).trans h).trans (hp.filterMap left?).symm

theorem Balanced.during {ms : List Mark} (h : Balanced ms) (call : Call) :
    Balanced (enter call :: (ms ++ [leave call])) := by
  have hentered : (enter call :: (ms ++ [leave call])).filterMap entered? =
      call :: ms.filterMap entered? := by
    simp [List.filterMap_cons, List.filterMap_append, entered?]
  have hleft : (enter call :: (ms ++ [leave call])).filterMap left? =
      ms.filterMap left? ++ [call] := by
    simp [List.filterMap_cons, List.filterMap_append, left?]
  unfold Balanced
  rw [hentered, hleft]
  exact (h.cons call).trans (List.perm_append_singleton call _).symm

end Mark

section Everywhere

variable {field : FieldTask → Prop} {narrow : Narrowing → Prop} {stop : Violation → Prop}

mutual

theorem Step.all_of_forall (hfield : ∀ t, field t) (hnarrow : ∀ n, narrow n)
    (hstop : ∀ v, stop v) : ∀ s : Step, s.All field narrow stop
  | .typename _ => trivial
  | .field t => hfield t
  | .splice plan => Plan.all_of_forall hfield hnarrow hstop (plan ())
  | .narrow n plan => ⟨hnarrow n, Plan.all_of_forall hfield hnarrow hstop (plan ())⟩

theorem Plan.all_of_forall (hfield : ∀ t, field t) (hnarrow : ∀ n, narrow n)
    (hstop : ∀ v, stop v) : ∀ p : Plan, p.All field narrow stop
  | .done => trivial
  | .stop v => hstop v
  | .step s rest => ⟨Step.all_of_forall hfield hnarrow hstop s,
      Plan.all_of_forall hfield hnarrow hstop rest⟩

end

end Everywhere

/-- There is nothing to ask of cursors where any call will do. -/
theorem Cursor.law_true : Cursor.Law (fun _ => True) fun _ => True where
  whole _ _ := trivial
  atIndex _ _ _ := trivial
  plan _ _ _ _ _ _ _ _ := Plan.all_of_forall (fun _ => ⟨trivial, trivial⟩)
    (fun _ => ⟨trivial, trivial⟩) (fun _ => trivial) _

theorem Mark.law_balanced : Mark.Law (fun _ => True) Mark.Balanced where
  nil := .nil
  append := .append
  perm := .perm
  during {c _} _ h := h.during c

/-- Resolvers leave what they enter. -/
theorem Action.balanced_of_runs {a : Action σ} {c : Cursor} {s s' : Effects σ} {ms : List Mark}
    {r : Ending} (h : (a.job c).Runs s ms r s') : Mark.Balanced ms :=
  Action.keeps_job Mark.law_balanced Cursor.law_true a c trivial ms r h.traces

end GraphQL
