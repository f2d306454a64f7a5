import GraphQL.Proofs.Execution.Instance
import GraphQL.Proofs.Value.Shape

/-! Plans in which no field is null that refuses null. Their fragments make no difference: the
process of such a plan merges the values of its leaves in order and records their errors. -/

namespace GraphQL

/-- The value of a field whose resolver ends this way: null if it fails. -/
def Ending.orNull : Ending → Value
  | .ok v => v
  | .error _ => .null

theorem Process.result_captured {p : Process} (hp : ∀ v, p.result ≠ .error (.violation v))
    (c : Cursor) (location : Position) :
    (p.captured c location).result = .ok p.result.orNull := by
  unfold captured
  rw [result_andThen]
  rcases hr : p.result with (e | v) | v
  · rfl
  · exact absurd hr (hp v)
  · rfl

theorem Process.unbroken_of_captured {p : Process} {c : Cursor} {location : Position}
    (h : ∀ v, (p.captured c location).result ≠ .error (.violation v)) (v : Violation) :
    p.result ≠ .error (.violation v) := by
  intro hv
  refine h v ?_
  rw [captured, result_andThen, hv]
  rfl

namespace Leaf

variable (h : Process.Handlers)

def step : Leaf → Step
  | typename key => .typename key
  | field task => .field task

def value : Leaf → Value
  | typename _ => .ofText h.objectName
  | field t => (h.field t).result.orNull

def contribution (l : Leaf) : Text × Value := (l.key, l.value h)

def errors (concurrent : Bool) : Leaf → List ExecutionError
  | typename _ => []
  | field t => ((h.field t).captured t.cursor t.location).errors concurrent

def refusesNull : Leaf → Bool
  | typename _ => false
  | field t => t.nonNull

/-- A leaf that is not null if it refuses null. -/
def IsAccepted (l : Leaf) : Prop := l.refusesNull = true → (l.value h).isNull = false

def IsUnbroken : Leaf → Prop
  | typename _ => True
  | field t => ∀ v, (h.field t).result ≠ .error (.violation v)

variable {h}

theorem result_process {l : Leaf} (ha : l.IsAccepted h) (hu : l.IsUnbroken h) (serial : Bool) :
    (l.step.process h serial).result = .ok (.object [l.contribution h]) := by
  cases l with
  | typename key => rfl
  | field t =>
    have hnull : (t.nonNull && ((field t).value h).isNull) = false := by
      cases hn : t.nonNull with
      | true => exact ha hn
      | false => rfl
    unfold step Step.process Process.bind
    rw [Process.result_andThen, Process.result_captured hu]
    unfold value at hnull
    simp only [Process.result, hnull, Bool.false_eq_true, if_false]
    rfl

theorem errors_process (l : Leaf) (serial concurrent : Bool) :
    (l.step.process h serial).errors concurrent = l.errors h concurrent := by
  cases l with
  | typename key => rfl
  | field t =>
    unfold step Step.process Process.bind errors
    rw [Process.errors_andThen]
    rcases ((h.field t).captured t.cursor t.location).result with r | v
    · simp [Process.errors]
    · simp [Process.errors]

end Leaf

section Plans

variable {h : Process.Handlers}

/-- A process that gives an object: its fields are the entries of leaves, merged in order, and its
errors are those of the leaves. -/
structure Process.Collects (h : Process.Handlers) (leaves : List Leaf) (p : Process) : Prop where
  result : ∃ fields, p.result = .ok (.object fields) ∧ ∀ field : Text → Shape,
    (∀ l ∈ leaves, (field l.key).Admits (l.value h)) →
      fields = Value.mergeFields (leaves.map (Leaf.contribution h)) []
  errors : ∀ concurrent, p.errors concurrent = leaves.flatMap (Leaf.errors h concurrent)

structure Process.CollectAll (h : Process.Handlers) (leaves : List Leaf) (tasks : List Process) :
    Prop where
  merge : ∀ target, ∃ fields,
    Tasks.merge ((Process.results tasks).map Ending.toOutcome) target = .ok (some fields) ∧
      ∀ field : Text → Shape, (∀ l ∈ leaves, (field l.key).Admits (l.value h)) →
        Shape.AdmitsFields field target →
          fields = Value.mergeFields (leaves.map (Leaf.contribution h)) target
  ofAll : ∀ concurrent,
    Process.errorsOfAll concurrent tasks = leaves.flatMap (Leaf.errors h concurrent)
  inTurn : ∀ concurrent,
    Process.errorsInTurn concurrent tasks = leaves.flatMap (Leaf.errors h concurrent)

theorem Leaf.admits_contributions {field : Text → Shape} {leaves : List Leaf}
    (hf : ∀ l ∈ leaves, (field l.key).Admits (l.value h)) :
    ∀ k v, (k, v) ∈ leaves.map (contribution h) → (field k).Admits v := by
  intro k v hm
  obtain ⟨l, hl, he⟩ := List.mem_map.mp hm
  obtain ⟨rfl, rfl⟩ := Prod.mk.inj he
  exact hf l hl

namespace Process

theorem Collects.ofLeaf {l : Leaf} (ha : l.IsAccepted h) (hu : l.IsUnbroken h) (serial : Bool) :
    (l.step.process h serial).Collects h [l] where
  result := ⟨[l.contribution h], Leaf.result_process ha hu serial, fun _ _ => rfl⟩
  errors concurrent := by
    rw [Leaf.errors_process, List.flatMap_singleton]

theorem CollectAll.nil : CollectAll h [] [] where
  merge target := ⟨target, rfl, fun _ _ _ => by rw [List.map_nil, Value.mergeFields]⟩
  ofAll _ := rfl
  inTurn _ := rfl

theorem CollectAll.cons {first rest : List Leaf} {p : Process} {tasks : List Process}
    (hp : p.Collects h first) (hps : CollectAll h rest tasks) :
    CollectAll h (first ++ rest) (p :: tasks) := by
  obtain ⟨fields, hresult, hfields⟩ := hp.result
  refine ⟨fun target => ?_, fun concurrent => ?_, fun concurrent => ?_⟩
  · obtain ⟨all, hall, hmerged⟩ := hps.merge (Value.mergeFields fields target)
    have hmerge : Tasks.merge ((results (p :: tasks)).map Ending.toOutcome) target =
        .ok (some all) := by
      rw [results, List.map_cons, hresult]
      exact hall
    refine ⟨all, hmerge, fun field hf ht => ?_⟩
    have hfirst : ∀ l ∈ first, (field l.key).Admits (l.value h) :=
      fun l hl => hf l (List.mem_append_left _ hl)
    have hrest : ∀ l ∈ rest, (field l.key).Admits (l.value h) :=
      fun l hl => hf l (List.mem_append_right _ hl)
    have hadmits := Leaf.admits_contributions hfirst
    -- The first task has merged its own fields already.
    have htarget : Value.mergeFields fields target =
        Value.mergeFields (first.map (Leaf.contribution h)) target := by
      rw [hfields field hfirst, Shape.mergeFields_mergeFields_nil hadmits ht]
    rw [htarget] at hmerged
    rw [hmerged field hrest (ht.merge hadmits), List.map_append, Value.mergeFields_append]
  · rw [errorsOfAll, hp.errors, hps.ofAll, List.flatMap_append]
  · have hcontinues : p.result.continues = true := by
      rw [hresult]
      rfl
    rw [errorsInTurn, hp.errors, if_pos hcontinues, hps.inTurn, List.flatMap_append]

theorem CollectAll.fork {leaves : List Leaf} {tasks : List Process}
    (hps : CollectAll h leaves tasks) (serial : Bool) :
    (Process.fork serial none tasks fun x => .finish (.ofOutcome x)).Collects h leaves := by
  obtain ⟨fields, hmerge, hfields⟩ := hps.merge []
  refine ⟨⟨fields, ?_, fun field hf => ?_⟩, fun concurrent => ?_⟩
  · simp only [result, joined, hmerge]
    rfl
  · exact hfields field hf (Shape.admitsFields_nil field)
  · simp [errors, hps.ofAll, hps.inTurn]

theorem Collects.bind {leaves : List Leaf} {p : Process} (hp : p.Collects h leaves) :
    (p.bind fun v => .finish (.ok (.object (Value.fieldsOrNone (some v))))).Collects h leaves := by
  obtain ⟨fields, hresult, hfields⟩ := hp.result
  refine ⟨⟨fields, ?_, hfields⟩, fun concurrent => ?_⟩
  · rw [Process.bind, result_andThen, hresult]
    rfl
  · rw [Process.bind, errors_andThen, hp.errors, hresult]
    exact List.append_nil _

end Process

mutual

theorem Step.collects (hinto : ∀ condition c, h.into condition c = none) (serial : Bool) :
    ∀ s : Step, s.IsComplete → (∀ l ∈ s.leaves, l.IsAccepted h ∧ l.IsUnbroken h) →
      (s.process h serial).Collects h s.leaves
  | .typename key, _, _ => .ofLeaf (l := .typename key) nofun trivial serial
  | .field t, _, hl => by
    obtain ⟨ha, hu⟩ := hl (.field t) (by simp [Step.leaves])
    exact .ofLeaf ha hu serial
  | .splice plan, hc, hl => by
    obtain ⟨hstop, htasks⟩ := Plan.collectAll hinto serial (plan ()) hc hl
    unfold Step.process
    rw [hstop]
    exact htasks.fork serial
  | .narrow n plan, hc, hl => by
    obtain ⟨hstop, htasks⟩ := Plan.collectAll hinto serial (plan ()) hc.2 hl
    unfold Step.process
    rw [hinto, hstop]
    exact (htasks.fork serial).bind

theorem Plan.collectAll (hinto : ∀ condition c, h.into condition c = none) (serial : Bool) :
    ∀ p : Plan, p.IsComplete → (∀ l ∈ p.leaves, l.IsAccepted h ∧ l.IsUnbroken h) →
      p.stop? = none ∧ Process.CollectAll h p.leaves (p.processes h serial)
  | .done, _, _ => ⟨rfl, .nil⟩
  | .stop _, hc, _ => hc.elim
  | .step s rest, ⟨hs, hr⟩, hl => by
    have hfirst : (s.process h serial).Collects h s.leaves :=
      Step.collects hinto serial s hs fun l hm => hl l (List.mem_append_left _ hm)
    obtain ⟨hstop, htasks⟩ := Plan.collectAll hinto serial rest hr
      fun l hm => hl l (List.mem_append_right _ hm)
    exact ⟨hstop, htasks.cons hfirst⟩

end

theorem Leaf.broken_or (l : Leaf) (serial : Bool) :
    (∃ v, (l.step.process h serial).result = .error (.violation v)) ∨ l.IsUnbroken h := by
  cases l with
  | typename key => exact .inr trivial
  | field t =>
    rcases hr : (h.field t).result with (e | v) | v
    · exact .inr fun v hv => by simp [hr] at hv
    · refine .inl ⟨v, ?_⟩
      unfold step Step.process Process.bind Process.captured
      rw [Process.result_andThen, Process.result_andThen, hr]
      rfl
    · exact .inr fun v hv => by simp [hr] at hv

/-- Where planning stopped, or one of the tasks breaks an invariant before any nulls the object. -/
def Process.AreBroken (stop : Option Violation) (tasks : List Process) : Prop :=
  (∃ v, stop = some v) ∨
    ∀ target, ∃ v, Tasks.merge ((results tasks).map Ending.toOutcome) target = .error v

theorem Process.AreBroken.fork {stop : Option Violation} {tasks : List Process}
    (hb : AreBroken stop tasks) (serial : Bool) :
    ∃ v, (fork serial stop tasks fun x => .finish (.ofOutcome x)).result =
      .error (.violation v) := by
  rcases hb with ⟨v, rfl⟩ | hmerge
  · exact ⟨v, rfl⟩
  · cases stop with
    | some v => exact ⟨v, rfl⟩
    | none =>
      obtain ⟨v, hv⟩ := hmerge []
      refine ⟨v, ?_⟩
      simp only [result, joined, hv]
      rfl

theorem Process.AreBroken.cons {stop : Option Violation} {p : Process} {tasks : List Process}
    {fields : Keyed Value} (hp : p.result = .ok (.object fields)) (hb : AreBroken stop tasks) :
    AreBroken stop (p :: tasks) := by
  refine hb.imp_right fun hmerge target => ?_
  obtain ⟨v, hv⟩ := hmerge (Value.mergeFields fields target)
  refine ⟨v, ?_⟩
  rw [results, List.map_cons, hp]
  exact hv

mutual

theorem Step.broken_or (hinto : ∀ condition c, h.into condition c = none) (serial : Bool) :
    ∀ s : Step, (∀ l ∈ s.leaves, l.IsAccepted h) →
      (∃ v, (s.process h serial).result = .error (.violation v)) ∨
        s.IsComplete ∧ ∀ l ∈ s.leaves, l.IsUnbroken h
  | .typename key, _ => .inr ⟨trivial, by simp [Step.leaves, Leaf.IsUnbroken]⟩
  | .field t, _ => by
    refine (Leaf.broken_or (.field t) serial).imp_right fun hu => ⟨trivial, ?_⟩
    simpa [Step.leaves] using hu
  | .splice plan, ha => (Plan.broken_or hinto serial (plan ()) ha).imp_left (·.fork serial)
  | .narrow n plan, ha => by
    refine (Plan.broken_or hinto serial (plan ()) ha).imp (fun hbroken => ?_)
      fun hwhole => ⟨⟨trivial, hwhole.1⟩, hwhole.2⟩
    obtain ⟨v, hv⟩ := hbroken.fork serial
    refine ⟨v, ?_⟩
    unfold Step.process
    rw [hinto]
    simp only [Process.bind, Process.result_andThen, hv]
    rfl

/-- A plan in which no field is null that refuses null is broken, or else complete and unbroken
throughout. -/
theorem Plan.broken_or (hinto : ∀ condition c, h.into condition c = none) (serial : Bool) :
    ∀ p : Plan, (∀ l ∈ p.leaves, l.IsAccepted h) →
      Process.AreBroken p.stop? (p.processes h serial) ∨
        p.IsComplete ∧ ∀ l ∈ p.leaves, l.IsUnbroken h
  | .done, _ => .inr ⟨trivial, by simp [Plan.leaves]⟩
  | .stop v, _ => .inl (.inl ⟨v, rfl⟩)
  | .step s rest, ha => by
    have hs : ∀ l ∈ s.leaves, l.IsAccepted h := fun l hm => ha l (List.mem_append_left _ hm)
    have hr : ∀ l ∈ rest.leaves, l.IsAccepted h := fun l hm => ha l (List.mem_append_right _ hm)
    rcases Step.broken_or hinto serial s hs with ⟨v, hv⟩ | ⟨hcomplete, hunbroken⟩
    · refine .inl (.inr fun target => ⟨v, ?_⟩)
      rw [Plan.processes, Process.results, List.map_cons, hv]
      rfl
    · obtain ⟨fields, hfields, -⟩ := (Step.collects hinto serial s hcomplete
        fun l hm => ⟨hs l hm, hunbroken l hm⟩).result
      refine (Plan.broken_or hinto serial rest hr).imp (·.cons hfields) fun ⟨hc, hu⟩ => ?_
      refine ⟨⟨hcomplete, hc⟩, fun l hm => ?_⟩
      exact (List.mem_append.mp hm).elim (hunbroken l) (hu l)

end

theorem Plan.collects (hinto : ∀ condition c, h.into condition c = none) {p : Plan}
    (hc : p.IsComplete) (hl : ∀ l ∈ p.leaves, l.IsAccepted h ∧ l.IsUnbroken h) (serial : Bool) :
    (p.process h serial).Collects h p.leaves := by
  obtain ⟨hstop, htasks⟩ := Plan.collectAll hinto serial p hc hl
  unfold Plan.process
  rw [hstop]
  exact htasks.fork serial

/-- A plan that breaks no invariant and in which no field is null that refuses null merges its
leaves. -/
theorem Plan.collects_of_ok (hinto : ∀ condition c, h.into condition c = none) {serial : Bool}
    {p : Plan} {v : Value} (hok : (p.process h serial).result = .ok v)
    (ha : ∀ l ∈ p.leaves, l.IsAccepted h) :
    p.IsComplete ∧ (∀ l ∈ p.leaves, l.IsUnbroken h) ∧ (p.process h serial).Collects h p.leaves := by
  rcases Plan.broken_or hinto serial p ha with hbroken | ⟨hcomplete, hunbroken⟩
  · obtain ⟨v', hv'⟩ := hbroken.fork serial
    exact absurd (hok.symm.trans hv') (by simp)
  · exact ⟨hcomplete, hunbroken,
      Plan.collects hinto hcomplete (fun l hl => ⟨ha l hl, hunbroken l hl⟩) serial⟩

end Plans

end GraphQL
