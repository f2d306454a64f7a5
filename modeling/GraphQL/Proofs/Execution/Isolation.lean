import GraphQL.Proofs.Execution.Below
import GraphQL.Proofs.Execution.Collected
import GraphQL.Proofs.Execution.Flattening
import GraphQL.Proofs.Execution.Leaves
import GraphQL.Proofs.Execution.Purity

/-! A field that fails and may be null leaves everything else as it is. Two values are resolved in
turn whose resolvers do the same, but for one field that fails on the second value: the data differ
under its keys only, and the errors at its places only. -/

namespace GraphQL

variable {σ : Type}

section Calls

variable (h : Subject.Handlers σ)

mutual

/-- The fields that a step comes to resolve, in order, when it is run in turn from a state. -/
def Step.calls : Step → Effects σ → List FieldTask
  | .typename _, _ => []
  | .field t, _ => [t]
  | .splice plan, s => if (plan ()).stop?.isSome then [] else (plan ()).callsInTurn s
  | .narrow n plan, s =>
    if (h.into n.condition n.cursor).isSome || (plan ()).stop?.isSome then []
    else (plan ()).callsInTurn s

/-- The same for a plan, up to the first step that does not give fields. -/
def Plan.callsInTurn : Plan → Effects σ → List FieldTask
  | .done, _ => []
  | .stop _, _ => []
  | .step first rest, s => first.calls s ++
    match (first.run h false).run.run s with
    | (.ok (some _), t) => rest.callsInTurn t
    | _ => []

end

/-- The fields that a plan comes to resolve in turn. It resolves none if planning stops. -/
def Plan.calls (p : Plan) (s : Effects σ) : List FieldTask :=
  if p.stop?.isSome then [] else p.callsInTurn h s

end Calls

/-- A field of a value at some place that fails: its name, the keys it is selected under, and how
each of its occurrences fails. -/
structure Fault where
  place : Cursor
  name : Text
  keys : List Text
  failure : FieldTask → FieldError

namespace Fault

/-- Null under the keys of the field, and the same values under the same keys otherwise. -/
def nulls (f : Fault) (fields : Keyed Value) : Keyed Value :=
  fields.map fun entry => (entry.1, if entry.1 ∈ f.keys then .null else entry.2)

/-- `true` for errors at an occurrence of the field or below one. -/
def covers (f : Fault) (e : ExecutionError) : Bool :=
  f.keys.any fun k => (f.place.path.segments ++ [PathSegment.key k]).isPrefixOf e.path

def error (f : Fault) (t : FieldTask) : ExecutionError :=
  ⟨t.location, f.place.path.segments ++ [.key t.key], f.failure t⟩

/-- What is recorded for the occurrences of the field among those that are resolved. -/
def thrown (f : Fault) (ts : List FieldTask) : List ExecutionError :=
  (ts.filter (·.name = f.name)).map f.error

end Fault

/-- A field that is planned from one that is selected at a cursor. -/
def FieldTask.IsSelected (t : FieldTask) (subject : Subject) (c : Cursor) (xs : SelectionSet) :
    Prop :=
  ∃ head body, c.scope.Selects subject.objectName head body xs ∧
    Plan.ofField subject c head body = .ok (.field t)

/-- Two ways to resolve the fields that are selected on a value, with pure resolvers. They do the
same and record the same errors, but for a field that may be null and whose keys no other field has.
The second way, that field fails. -/
structure Fault.Spoils (f : Fault) (subject : Subject) (xs : SelectionSet)
    (field field' : Text → FieldArguments → Cursor → Action σ) : Prop where
  declared : ∃ d, subject.type.field? f.name = some d ∧ d.type.isNonNull = false
  resolved : f.name ≠ lit "__typename"
  keys : ∀ head body, f.place.scope.Selects subject.objectName head body xs →
    (head.responseName ∈ f.keys ↔ head.name.value = f.name)
  others : ∀ t : FieldTask, t.IsSelected subject f.place xs → t.name ≠ f.name → ∃ r es,
    Appends ((field t.name t.arguments t.cursor).run t.cursor) r es ∧
      Appends ((field' t.name t.arguments t.cursor).run t.cursor) r es
  first : ∀ t : FieldTask, t.IsSelected subject f.place xs → t.name = f.name → ∃ r es,
    (∀ v, r ≠ .error (.violation v)) ∧
      Appends ((field t.name t.arguments t.cursor).run t.cursor) r es
  second : ∀ t : FieldTask, t.IsSelected subject f.place xs → t.name = f.name →
    Appends ((field' t.name t.arguments t.cursor).run t.cursor) (.error (.failure (f.failure t))) []

/-- Another field that is selected on the value breaks an invariant. -/
def Fault.BreaksElsewhere (f : Fault) (subject : Subject) (xs : SelectionSet)
    (field : Text → FieldArguments → Cursor → Action σ) (v : Violation) : Prop :=
  ∃ (t : FieldTask) (es : List ExecutionError), t.IsSelected subject f.place xs ∧
    t.name ≠ f.name ∧
    Appends ((field t.name t.arguments t.cursor).run t.cursor) (.error (.violation v)) es

section Leaves

namespace Plan

variable {subject : Subject} {expand : Expand} {c : Cursor}

/-- Every leaf of a plan is planned from one of certain fields that are selected at a cursor. -/
def StemsFrom (subject : Subject) (c : Cursor) (fields : FieldHead → Option SelectionSet → Prop)
    (leaves : List Leaf) : Prop :=
  ∀ l ∈ leaves, ∃ head body, fields head body ∧ ofField subject c head body = .ok l.step

/-- What fragments expand to stems from fields that are selected in them. -/
def Expand.Stems (subject : Subject) (c : Cursor) (expand : Expand) : Prop :=
  ∀ (f : Fragment) (fields : FieldHead → Option SelectionSet → Prop),
    (∀ head body, c.scope.Selects subject.objectName head body f.selections → fields head body) →
    ∀ c' : Cursor, c'.SamePlace c → StemsFrom subject c fields (expand c' f).leaves

mutual

theorem stemsFrom_ofSelection (hexpand : expand.Stems subject c) :
    ∀ (x : Selection) (fields : FieldHead → Option SelectionSet → Prop),
      (∀ head body, c.scope.Selects subject.objectName head body [x] → fields head body) →
      ∀ c' : Cursor, c'.SamePlace c → ∀ s, ofSelection subject expand c' x = .ok (some s) →
        StemsFrom subject c fields s.leaves
  | .field head body, fields, h, c', hc, s, hs => by
    obtain ⟨hx, hfield⟩ := ofField_of_ofSelection hs
    rw [hc.1] at hx
    rw [ofField_samePlace hc] at hfield
    have hmem := h head body (.field (List.mem_singleton.mpr rfl) hx)
    intro l hl
    rcases ofField_cases_of_ok hfield with ⟨-, rfl⟩ | ⟨declaration, below, -, -, rfl⟩
    · obtain rfl := List.mem_singleton.mp hl
      exact ⟨head, body, hmem, hfield⟩
    · obtain rfl := List.mem_singleton.mp hl
      exact ⟨head, body, hmem, hfield⟩
  | .spread sp, fields, h, c', hc, s, hs => by
    obtain ⟨f, hput, rfl⟩ := spreadOn_of_ofSelection hs
    rw [hc.1] at hput
    exact hexpand f fields
      (fun head body inside => h head body (.spread (List.mem_singleton.mpr rfl) hput inside)) c' hc
  | .inline head inner, fields, h, c', hc, s, hs => by
    obtain ⟨hentered, rfl⟩ := entersInline_of_ofSelection hs
    rw [hc.1] at hentered
    rw [Step.leaves_ofInline]
    exact stemsFrom_ofSelections hexpand inner fields
      (fun head body inside => h head body (.inline (List.mem_singleton.mpr rfl) hentered inside))
      (c'.atInline head.condition inner) hc

theorem stemsFrom_ofSelections (hexpand : expand.Stems subject c) :
    ∀ (xs : List Selection) (fields : FieldHead → Option SelectionSet → Prop),
      (∀ head body, c.scope.Selects subject.objectName head body xs → fields head body) →
      ∀ c' : Cursor, c'.SamePlace c →
        StemsFrom subject c fields (ofSelections subject expand c' xs).leaves
  | [], _, _, _, _ => by simp [StemsFrom, ofSelections, leaves]
  | x :: rest, fields, h, c', hc => by
    have hx := stemsFrom_ofSelection hexpand x fields
      (fun head body hs => h head body (hs.mono (by simp))) c' hc
    have hrest := stemsFrom_ofSelections hexpand rest fields
      (fun head body hs => h head body (hs.mono (by simp +contextual))) c' hc
    unfold ofSelections
    rcases hsel : ofSelection subject expand c' x with v | _ | s
    · simp [StemsFrom, leaves]
    · exact hrest
    · exact List.forall_mem_append.mpr ⟨hx s hsel, hrest⟩

end

theorem stems_expandUpTo (depth : Nat) : (expandUpTo subject depth).Stems subject c := by
  induction depth with
  | zero => exact fun _ _ _ _ _ => by simp [StemsFrom, expandUpTo, leaves]
  | succ depth ih => exact fun f fields h => stemsFrom_ofSelections ih f.selections fields h

/-- The leaves of a plan are planned from the fields that are selected on the object. -/
theorem stemsFrom_ofSelectionSet (subject : Subject) (c : Cursor) (xs : SelectionSet) :
    StemsFrom subject c (fun head body => c.scope.Selects subject.objectName head body xs)
      (ofSelectionSet subject c xs).leaves :=
  stemsFrom_ofSelections (stems_expandUpTo _) xs _ (fun _ _ h => h) c ⟨rfl, rfl⟩

end Plan

end Leaves

section Values

namespace Fault

variable (f : Fault)

@[simp] theorem keys_nulls (fields : Keyed Value) : (f.nulls fields).keys = fields.keys := by
  simp [nulls, Keyed.keys, Function.comp_def]

theorem nulls_modify (k : Text) (v : Value) (fields : Keyed Value) :
    f.nulls (Keyed.modify (Value.mergeInto v) k fields) =
      Keyed.modify (Value.mergeInto (if k ∈ f.keys then .null else v)) k (f.nulls fields) := by
  induction fields with
  | nil => rfl
  | cons entry fields ih =>
    obtain ⟨i, a⟩ := entry
    by_cases hi : k = i
    · subst hi
      by_cases hk : k ∈ f.keys <;> simp [Keyed.modify, nulls, hk, Value.mergeInto]
    · simp only [nulls] at ih
      simp [Keyed.modify, nulls, hi, ih]

theorem nulls_mergeKey (fields : Keyed Value) (k : Text) (v : Value) :
    f.nulls (Value.mergeKey fields k v) =
      Value.mergeKey (f.nulls fields) k (if k ∈ f.keys then .null else v) := by
  by_cases hk : fields.contains k = true
  · have hk' : (f.nulls fields).contains k = true := by
      rw [Keyed.contains_iff_mem_keys, keys_nulls]
      exact Keyed.contains_iff_mem_keys.mp hk
    rw [Value.mergeKey_of_contains hk, Value.mergeKey_of_contains hk', nulls_modify]
  · have hk' : ¬ (f.nulls fields).contains k = true := by
      rw [Keyed.not_contains_iff, keys_nulls]
      exact Keyed.not_contains_iff.mp hk
    rw [Value.mergeKey_of_not_contains hk, Value.mergeKey_of_not_contains hk']
    simp [nulls]

/-- It makes no difference whether fields are nulled before or after they are merged. -/
theorem nulls_mergeFields (source target : Keyed Value) :
    f.nulls (Value.mergeFields source target) =
      Value.mergeFields (f.nulls source) (f.nulls target) := by
  induction source generalizing target with
  | nil => rfl
  | cons entry source ih =>
    have hcons : f.nulls (entry :: source) =
        (entry.1, if entry.1 ∈ f.keys then .null else entry.2) :: f.nulls source := rfl
    rw [hcons, Value.mergeFields_cons, Value.mergeFields_cons, ih, nulls_mergeKey]

end Fault

end Values

section Places

theorem Appends.isBelow {x : Resolve σ Value} {r : Except Raise Value} {es : List ExecutionError}
    {c : Cursor} (s : Effects σ) (hx : Appends x r es) (hc : RecordsBelow c x) :
    ∀ e ∈ es, e.IsBelow c := by
  intro e he
  have hrun := hx ⟨[], s.world⟩
  have hrecords := hc ⟨[], s.world⟩ e (by rw [hrun]; simpa using he)
  simpa using hrecords

/-- Of errors below a field of the object, those are covered whose key is one of the fault. -/
theorem Fault.covers_of_isBelow {f : Fault} {c : Cursor} {k : Text} {e : ExecutionError}
    (hc : c.path.segments = f.place.path.segments ++ [.key k]) (he : e.IsBelow c) :
    f.covers e = true ↔ k ∈ f.keys := by
  obtain ⟨rest, hrest⟩ := he
  rw [hc] at hrest
  simp [covers, ← hrest]

end Places

section Capturing

/-- What a field gives that is resolved to a value. -/
def FieldTask.outcome (t : FieldTask) (v : Value) : Outcome :=
  if t.nonNull && v.isNull then none else some [(t.key, v)]

/-- What a field gives whose resolver ends in some way: it is null if it fails. -/
def FieldTask.gives (t : FieldTask) : Except Raise Value → Except Violation Outcome
  | .ok v => .ok (t.outcome v)
  | .error (.failure _) => .ok (t.outcome .null)
  | .error (.violation v) => .error v

/-- The errors of a field: those that its resolver records, and its failure. -/
def FieldTask.errors (t : FieldTask) (es : List ExecutionError) :
    Except Raise Value → List ExecutionError
  | .error (.failure e) => es ++ [⟨t.location, t.cursor.path.segments, e⟩]
  | _ => es

theorem FieldTask.appends {h : Subject.Handlers σ} {t : FieldTask} {r : Except Raise Value}
    {es : List ExecutionError} (hx : Appends (h.field t) r es) (concurrent : Bool) :
    Appends ((Step.field t).run h concurrent) (t.gives r) (t.errors es r) := by
  intro s
  unfold Step.run
  rw [run_bind, Resolve.run_captured, hx s]
  rcases r with (e | v) | v
  · simp only [errors, Effects.record, List.append_assoc]
    rfl
  · rfl
  · rfl

/-- The errors of a field lie at its place or below it. -/
theorem FieldTask.isBelow_errors {t : FieldTask} {x : Resolve σ Value} {r : Except Raise Value}
    {es : List ExecutionError} (s : Effects σ) (hx : Appends x r es)
    (hc : RecordsBelow t.cursor x) : ∀ e ∈ t.errors es r, e.IsBelow t.cursor := by
  have hbelow := hx.isBelow s hc
  rcases r with (failure | v) | v
  · intro e he
    rcases List.mem_append.mp he with he | he
    · exact hbelow e he
    · rw [List.mem_singleton.mp he]
      exact List.prefix_rfl
  · exact hbelow
  · exact hbelow

end Capturing

section InTurn

variable {es es' : List ExecutionError} {x : Run σ Outcome} {tasks : List (Run σ Outcome)}
  {merged : Keyed Value}

theorem Appends.runInTurn_error {v : Violation} (hx : Appends x (.error v) es) :
    Appends (Tasks.runInTurn (x :: tasks) merged) (.error v) es := hx.bind_error

theorem Appends.runInTurn_none (hx : Appends x (.ok none) es) :
    Appends (Tasks.runInTurn (x :: tasks) merged) (.ok none) es := by
  intro s
  unfold Tasks.runInTurn
  rw [run_bind, hx s]
  rfl

theorem Appends.runInTurn_some {own : Keyed Value} {r : Except Violation Outcome}
    (hx : Appends x (.ok (some own)) es)
    (hrest : Appends (Tasks.runInTurn tasks (Value.mergeFields own merged)) r es') :
    Appends (Tasks.runInTurn (x :: tasks) merged) r (es ++ es') := hx.bind_ok hrest

variable {h : Subject.Handlers σ} {first : Step} {rest : Plan}

theorem Plan.callsInTurn_some {own : Keyed Value}
    (hx : Appends (first.run h false) (.ok (some own)) es) (s : Effects σ) :
    (Plan.step first rest).callsInTurn h s =
      first.calls h s ++ rest.callsInTurn h { s with errors := s.errors ++ es } := by
  rw [callsInTurn, hx s]

theorem Plan.callsInTurn_none (hx : Appends (first.run h false) (.ok none) es) (s : Effects σ) :
    (Plan.step first rest).callsInTurn h s = first.calls h s := by
  rw [callsInTurn, hx s, List.append_nil]

theorem Plan.callsInTurn_error {v : Violation} (hx : Appends (first.run h false) (.error v) es)
    (s : Effects σ) : (Plan.step first rest).callsInTurn h s = first.calls h s := by
  rw [callsInTurn, hx s, List.append_nil]

end InTurn

/-- What holds of a task that is run with the resolvers of the first value and of the second one,
and of the fields that they come to resolve. -/
def Fault.Relates (f : Fault) (x x' : Run σ Outcome) (calls calls' : Effects σ → List FieldTask) :
    Prop :=
  ∃ (o : Except Violation Outcome) (es es' : List ExecutionError) (ts : List FieldTask),
    Appends x o es ∧ Appends x' (o.map (Option.map f.nulls)) es' ∧
    (∀ s, calls s = ts) ∧ (∀ s, calls' s = ts) ∧
    es'.Perm (es.filter (fun e => !f.covers e) ++ f.thrown ts)

theorem Fault.thrown_append (f : Fault) (ts us : List FieldTask) :
    f.thrown (ts ++ us) = f.thrown ts ++ f.thrown us := by
  simp [thrown]

/-- Each of some leaves is related to itself with the resolvers of the second value. -/
def Fault.RelatesAll (f : Fault) (h h' : Subject.Handlers σ) (leaves : List Leaf) : Prop :=
  ∀ l ∈ leaves, f.Relates (l.step.run h false) (l.step.run h' false) (l.step.calls h)
    (l.step.calls h')

section Relating

variable {f : Fault} {h h' : Subject.Handlers σ}

mutual

-- what has been merged so far differs by `nulls`, and with each step it goes on to do so
theorem Fault.relates_step (hinto : ∀ condition c, h.into condition c = none)
    (hinto' : ∀ condition c, h'.into condition c = none) : ∀ step : Step,
    f.RelatesAll h h' step.leaves →
    f.Relates (step.run h false) (step.run h' false) (step.calls h) (step.calls h')
  | .typename key, hl => hl (.typename key) (List.mem_singleton.mpr rfl)
  | .field t, hl => hl (.field t) (List.mem_singleton.mpr rfl)
  | .splice plan, hl => Fault.relates_run hinto hinto' (plan ()) hl
  | .narrow n plan, hl => by
    obtain ⟨o, es, es', ts, hx, hx', hcalls, hcalls', hperm⟩ :=
      Fault.relates_run hinto hinto' (plan ()) hl
    have hown := hx'.map fun outcome => some (outcome.getD [])
    refine ⟨o.map fun outcome => some (outcome.getD []), es, es', ts, ?_, ?_, fun s => ?_,
      fun s => ?_, hperm⟩
    · unfold Step.run
      rw [hinto]
      exact hx.map _
    · unfold Step.run
      rw [hinto']
      rcases o with v | _ | own <;> exact hown
    · rw [← hcalls s, Step.calls, hinto]
      rfl
    · rw [← hcalls' s, Step.calls, hinto']
      rfl

/-- A fault that relates the leaves of a plan relates its runs. -/
theorem Fault.relates_run (hinto : ∀ condition c, h.into condition c = none)
    (hinto' : ∀ condition c, h'.into condition c = none) : ∀ p : Plan,
    f.RelatesAll h h' p.leaves →
    f.Relates ((p.tasks h false).run false) ((p.tasks h' false).run false) (p.calls h)
      (p.calls h')
  | p, hl => by
    unfold Tasks.run Plan.calls
    rw [if_neg (by simp), if_neg (by simp), Plan.stop_tasks, Plan.stop_tasks]
    cases hstop : p.stop? with
    | some v =>
      exact ⟨.error v, [], [], [], .throw v, .throw v, fun _ => rfl, fun _ => rfl, .refl _⟩
    | none => exact Fault.relates_runInTurn hinto hinto' p hl []

theorem Fault.relates_runInTurn (hinto : ∀ condition c, h.into condition c = none)
    (hinto' : ∀ condition c, h'.into condition c = none) : ∀ p : Plan,
    f.RelatesAll h h' p.leaves → ∀ merged,
    f.Relates (Tasks.runInTurn (p.tasks h false).inOrder merged)
      (Tasks.runInTurn (p.tasks h' false).inOrder (f.nulls merged)) (p.callsInTurn h)
      (p.callsInTurn h')
  | .done, _, merged =>
    ⟨.ok (some merged), [], [], [], .pure _, .pure _, fun _ => rfl, fun _ => rfl, .refl _⟩
  | .stop _, _, merged =>
    ⟨.ok (some merged), [], [], [], .pure _, .pure _, fun _ => rfl, fun _ => rfl, .refl _⟩
  | .step first rest, hl, merged => by
    obtain ⟨hfirst, hrest⟩ := List.forall_mem_append.mp hl
    obtain ⟨o, es, es', ts, hx, hx', hcalls, hcalls', hperm⟩ :=
      Fault.relates_step hinto hinto' first hfirst
    rcases o with v | _ | own
    · exact ⟨.error v, es, es', ts, hx.runInTurn_error, hx'.runInTurn_error,
        fun s => (Plan.callsInTurn_error hx s).trans (hcalls s),
        fun s => (Plan.callsInTurn_error hx' s).trans (hcalls' s), hperm⟩
    · exact ⟨.ok none, es, es', ts, hx.runInTurn_none, hx'.runInTurn_none,
        fun s => (Plan.callsInTurn_none hx s).trans (hcalls s),
        fun s => (Plan.callsInTurn_none hx' s).trans (hcalls' s), hperm⟩
    · obtain ⟨r, es₁, es₁', us, hy, hy', hlater, hlater', hothers⟩ :=
        Fault.relates_runInTurn hinto hinto' rest hrest (Value.mergeFields own merged)
      rw [Fault.nulls_mergeFields] at hy'
      refine ⟨r, es ++ es₁, es' ++ es₁', ts ++ us, hx.runInTurn_some hy, hx'.runInTurn_some hy',
        fun s => ?_, fun s => ?_, ?_⟩
      · rw [Plan.callsInTurn_some hx, hcalls, hlater]
      · rw [Plan.callsInTurn_some hx', hcalls', hlater']
      · rw [List.filter_append, Fault.thrown_append]
        exact Process.perm_append_append hperm hothers

end

end Relating

section Leaves

variable {f : Fault} {typeName objectName : Text} {type : TypeDef} {xs : SelectionSet}
  {field field' : Text → FieldArguments → Cursor → Action σ}

/-- Fields under other keys stay as they are. -/
theorem Fault.nulls_gives {t : FieldTask} (hk : t.key ∉ f.keys) (r : Except Raise Value) :
    (t.gives r).map (Option.map f.nulls) = t.gives r := by
  have houtcome (v : Value) : (t.outcome v).map f.nulls = t.outcome v := by
    unfold FieldTask.outcome
    split
    · rfl
    · simp [nulls, hk]
  rcases r with (e | v) | v
  · exact congrArg Except.ok (houtcome .null)
  · rfl
  · exact congrArg Except.ok (houtcome v)

/-- A field that may be null gives null in place of its value. -/
theorem Fault.nulls_gives_of_mem {t : FieldTask} (hk : t.key ∈ f.keys) (hn : t.nonNull = false)
    {r : Except Raise Value} (hr : ∀ v, r ≠ .error (.violation v)) :
    (t.gives r).map (Option.map f.nulls) = .ok (t.outcome .null) := by
  have houtcome (v : Value) : (t.outcome v).map f.nulls = t.outcome .null := by
    simp [FieldTask.outcome, hn, nulls, hk]
  rcases r with (e | v) | v
  · exact congrArg Except.ok (houtcome .null)
  · exact (hr v rfl).elim
  · exact congrArg Except.ok (houtcome v)

/-- A field that does the same for both values does not touch the keys and the places of the
fault. -/
theorem Fault.relates_other {h h' : Subject.Handlers σ} {t : FieldTask} {r : Except Raise Value}
    {es : List ExecutionError}
    (hc : t.cursor.path.segments = f.place.path.segments ++ [.key t.key]) (hk : t.key ∉ f.keys)
    (hn : t.name ≠ f.name) (hx : Appends (h.field t) r es) (hx' : Appends (h'.field t) r es)
    (hbelow : ∀ e ∈ t.errors es r, e.IsBelow t.cursor) :
    f.Relates ((Step.field t).run h false) ((Step.field t).run h' false)
      ((Step.field t).calls h) ((Step.field t).calls h') := by
  have houtside : (t.errors es r).filter (fun e => !f.covers e) = t.errors es r := by
    refine List.filter_eq_self.mpr fun e he => ?_
    simpa using fun hcovers => hk ((covers_of_isBelow hc (hbelow e he)).mp hcovers)
  have hnone : f.thrown [t] = [] := by simp [thrown, hn]
  refine ⟨t.gives r, t.errors es r, t.errors es r, [t], FieldTask.appends hx false, ?_,
    fun _ => rfl, fun _ => rfl, ?_⟩
  · rw [nulls_gives hk]
    exact FieldTask.appends hx' false
  · rw [houtside, hnone, List.append_nil]

/-- A field that fails for the second value leaves null and its one error there. -/
theorem Fault.relates_failing {h h' : Subject.Handlers σ} {t : FieldTask} {r : Except Raise Value}
    {es : List ExecutionError}
    (hc : t.cursor.path.segments = f.place.path.segments ++ [.key t.key]) (hk : t.key ∈ f.keys)
    (hn : t.name = f.name) (hnull : t.nonNull = false) (hr : ∀ v, r ≠ .error (.violation v))
    (hx : Appends (h.field t) r es)
    (hx' : Appends (h'.field t) (.error (.failure (f.failure t))) [])
    (hbelow : ∀ e ∈ t.errors es r, e.IsBelow t.cursor) :
    f.Relates ((Step.field t).run h false) ((Step.field t).run h' false)
      ((Step.field t).calls h) ((Step.field t).calls h') := by
  have hinside : (t.errors es r).filter (fun e => !f.covers e) = [] := by
    refine List.filter_eq_nil_iff.mpr fun e he => ?_
    simpa using (covers_of_isBelow hc (hbelow e he)).mpr hk
  have hthrown : f.thrown [t] = [⟨t.location, t.cursor.path.segments, f.failure t⟩] := by
    simp [thrown, hn, error, hc]
  refine ⟨t.gives r, t.errors es r, f.thrown [t], [t], FieldTask.appends hx false, ?_,
    fun _ => rfl, fun _ => rfl, ?_⟩
  · rw [nulls_gives_of_mem hk hnull hr, hthrown]
    exact FieldTask.appends hx' false
  · rw [hinside, List.nil_append]

/-- The leaves of the two values' common plan. -/
theorem Fault.Spoils.relates_leaf (hs : f.Spoils ⟨type, objectName⟩ xs field field')
    (s : Effects σ) {l : Leaf} {head : FieldHead} {body : Option SelectionSet}
    (hselected : f.place.scope.Selects objectName head body xs)
    (hplanned : Plan.ofField ⟨type, objectName⟩ f.place head body = .ok l.step) :
    f.Relates (l.step.run (.ofFields typeName objectName field) false)
      (l.step.run (.ofFields typeName objectName field') false)
      (l.step.calls (.ofFields typeName objectName field))
      (l.step.calls (.ofFields typeName objectName field')) := by
  have hkeys := hs.keys head body hselected
  cases l with
  | typename key =>
    rcases Plan.ofField_cases_of_ok hplanned with ⟨hname, hstep⟩ | ⟨_, _, -, -, hstep⟩
    · obtain rfl : key = head.responseName := by cases hstep; rfl
      have hk : head.responseName ∉ f.keys := fun hk => hs.resolved ((hkeys.mp hk).symm.trans hname)
      refine ⟨.ok (some [(head.responseName, .ofText objectName)]), [], [], [], .pure _, ?_,
        fun _ => rfl, fun _ => rfl, .refl _⟩
      have hnulls : f.nulls [(head.responseName, .ofText objectName)] =
          [(head.responseName, .ofText objectName)] := by simp [nulls, hk]
      rw [Except.map, Option.map, hnulls]
      exact .pure _
    · cases hstep
  | field t =>
    have ht : t.IsSelected ⟨type, objectName⟩ f.place xs := ⟨head, body, hselected, hplanned⟩
    rcases Plan.ofField_cases_of_ok hplanned with ⟨-, hstep⟩ | ⟨d, below, hd, hbelow, hstep⟩
    · cases hstep
    · obtain rfl : t = ⟨head.responseName, head.name.value,
          .ofField f.place.scope.vars head d.arguments, below, d.type.isNonNull⟩ := by
        cases hstep
        rfl
      have hc := Cursor.segments_atField hbelow
      by_cases hn : head.name.value = f.name
      · obtain ⟨r, es, hr, hx⟩ := hs.first _ ht hn
        obtain ⟨d', hd', hnull⟩ := hs.declared
        obtain rfl : d = d' := by
          rw [hn] at hd
          exact Option.some.inj (hd.symm.trans hd')
        exact relates_failing hc (hkeys.mpr hn) hn hnull hr hx (hs.second _ ht hn)
          (FieldTask.isBelow_errors s hx (Action.recordsBelow _ _))
      · obtain ⟨r, es, hx, hx'⟩ := hs.others _ ht hn
        exact relates_other hc (fun hk => hn (hkeys.mp hk)) hn hx hx'
          (FieldTask.isBelow_errors s hx (Action.recordsBelow _ _))

theorem Fault.Spoils.relates_plan (hs : f.Spoils ⟨type, objectName⟩ xs field field')
    (typeName : Text) (s : Effects σ) :
    let p := Plan.ofSelectionSet ⟨type, objectName⟩ f.place xs
    let h : Subject.Handlers σ := .ofFields typeName objectName field
    let h' : Subject.Handlers σ := .ofFields typeName objectName field'
    f.Relates ((p.tasks h false).run false) ((p.tasks h' false).run false) (p.calls h)
      (p.calls h') := by
  refine relates_run (fun _ _ => rfl) (fun _ _ => rfl) _ fun l hl => ?_
  obtain ⟨head, body, hselected, hplanned⟩ := Plan.stemsFrom_ofSelectionSet _ f.place xs l hl
  exact hs.relates_leaf s hselected hplanned

/-- If planning does not stop, nothing but another field breaks off the value. -/
theorem Fault.Spoils.raises_plan (hs : f.Spoils ⟨type, objectName⟩ xs field field')
    (typeName : Text) (hcomplete : (Plan.ofSelectionSet ⟨type, objectName⟩ f.place xs).IsComplete) :
    Raises (f.BreaksElsewhere ⟨type, objectName⟩ xs field)
      (((Plan.ofSelectionSet ⟨type, objectName⟩ f.place xs).tasks
        (.ofFields typeName objectName field) false).run false) := by
  have hleaves : ∀ t, .field t ∈ (Plan.ofSelectionSet ⟨type, objectName⟩ f.place xs).leaves →
      t.IsSelected ⟨type, objectName⟩ f.place xs :=
    fun t ht => Plan.stemsFrom_ofSelectionSet _ f.place xs _ ht
  refine Plan.raises_run (fun t ht s e he => ?_) (fun _ _ _ (hx : none = some _) => nomatch hx)
    (fun _ hv => hv.elim) false _ (Plan.all_of_leaves _ hcomplete hleaves)
  by_cases hn : t.name = f.name
  · obtain ⟨r, es, hr, hx⟩ := hs.first t ht hn
    obtain rfl : r = .error e := (congrArg Prod.fst (hx s)).symm.trans he
    cases e with
    | failure _ => trivial
    | violation v => exact (hr v rfl).elim
  · obtain ⟨r, es, hx, -⟩ := hs.others t ht hn
    obtain rfl : r = .error e := (congrArg Prod.fst (hx s)).symm.trans he
    cases e with
    | failure _ => trivial
    | violation v => exact ⟨t, es, ht, hn, hx⟩

end Leaves

/-- A failure stays where it happens. Two values of one type are resolved in turn, with resolvers
that are pure and do the same, but for a field that may be null and that fails on the second value.
Then both are null, or both are objects with the same keys in the same order and the same values,
except that the second has null under the keys of the field. The second has the errors of the first
that are not at an occurrence of the field or below it, and besides one for each occurrence that is
resolved. Both are broken off in the same way where planning stops or another field breaks an
invariant, and nowhere else. -/
theorem Node.fault_isIsolated {typeName objectName : Text} {type : TypeDef} {xs : SelectionSet}
    {field field' : Text → FieldArguments → Cursor → Action σ} {f : Fault}
    (hserial : f.place.isConcurrent = false) (hsel : f.place.selections = some xs)
    (htype : f.place.scope.schema.type? typeName = some type)
    (hspoils : f.Spoils ⟨type, objectName⟩ xs field field') (s : Effects σ) :
    ∃ (r r' : Except Raise Value) (es es' : List ExecutionError) (ts : List FieldTask),
      Appends ((Node.mk typeName objectName field (fun _ => .none) .none).resolve f.place) r es ∧
      Appends ((Node.mk typeName objectName field' (fun _ => .none) .none).resolve f.place) r' es' ∧
      ((∃ v, r = .error (.violation v) ∧ r' = .error (.violation v) ∧
          ((Plan.ofSelectionSet ⟨type, objectName⟩ f.place xs).IsComplete →
            f.BreaksElsewhere ⟨type, objectName⟩ xs field v)) ∨
        (r = .ok .null ∧ r' = .ok .null) ∨
        ∃ fields, r = .ok (.object fields) ∧ r' = .ok (.object (f.nulls fields))) ∧
      (Plan.ofSelectionSet ⟨type, objectName⟩ f.place xs).calls
        (.ofFields typeName objectName field) s = ts ∧
      (Plan.ofSelectionSet ⟨type, objectName⟩ f.place xs).calls
        (.ofFields typeName objectName field') s = ts ∧
      es'.Perm (es.filter (fun e => !f.covers e) ++ f.thrown ts) := by
  obtain ⟨o, es, es', ts, hx, hx', hcalls, hcalls', hperm⟩ := hspoils.relates_plan typeName s
  have hresolve {field : Text → FieldArguments → Cursor → Action σ}
      {o : Except Violation Outcome} {es : List ExecutionError}
      (hx : Appends (((Plan.ofSelectionSet ⟨type, objectName⟩ f.place xs).tasks
        (.ofFields typeName objectName field) false).run false) o es) :
      Appends ((Node.mk typeName objectName field (fun _ => .none) .none).resolve f.place)
        ((o.map Outcome.toValue).mapError .violation) es := by
    rw [resolve_of_selections hsel, Cursor.resolveSelections_of_type htype, hserial]
    exact (hx.map Outcome.toValue).toResolve
  refine ⟨_, _, es, es', ts, hresolve hx, hresolve hx', ?_, hcalls s, hcalls' s, hperm⟩
  rcases o with v | _ | fields
  · exact .inl ⟨v, rfl, rfl, fun hcomplete =>
      hspoils.raises_plan typeName hcomplete s v (congrArg Prod.fst (hx s))⟩
  · exact .inr (.inl ⟨rfl, rfl⟩)
  · exact .inr (.inr ⟨fields, rfl, rfl⟩)

namespace Clinic

def query : ObjectDef :=
  ⟨lit "Query", none, [⟨lit "a", none, none, .named (lit "Int") true, .current⟩,
    ⟨lit "f", none, none, .named (lit "Int") false, .current⟩], []⟩

def schema : Schema :=
  ⟨[(lit "Int", .scalar Scalars.int), (lit "Query", .object query)], lit "Query", none, none, [],
    none⟩

def selected (name key : Text) : FieldHead :=
  ⟨some (.unlocated key), .unlocated name, none, none, .unlocated⟩

/-- The field stands before and after another one, the second time in a fragment. -/
def selections : SelectionSet :=
  [.field (selected (lit "f") (lit "x")) none, .field (selected (lit "a") (lit "a")) none,
    .inFragment (some (lit "Query")) [.field (selected (lit "f") (lit "y")) none]]

def fault : Fault :=
  ⟨.root ⟨schema, [], [], none, false⟩ selections (.object query) .origin, lit "f",
    [lit "x", lit "y"], fun _ => .ofText (lit "no f")⟩

/-- Every field reports something before it gives one. -/
def field (name : Text) (_ : FieldArguments) (_ : Cursor) : Action Unit :=
  .report (.ofText name) none (.value (.scalar (.int 1)))

def failing (name : Text) (arguments : FieldArguments) (c : Cursor) : Action Unit :=
  if name = lit "f" then .fail (.ofText (lit "no f")) else field name arguments c

theorem appends_field (name : Text) (arguments : FieldArguments) (c : Cursor) :
    Appends ((field name arguments c).run c) (.ok (.scalar (.int 1)))
      [⟨c.location, c.path.segments, .ofText name⟩] := fun _ => rfl

theorem responseName_mem_keys_iff {head : FieldHead} {body : Option SelectionSet}
    (h : fault.place.scope.Selects (lit "Query") head body selections) :
    head.responseName ∈ fault.keys ↔ head.name.value = fault.name := by
  cases h with
  | field mem =>
    rcases List.mem_cons.mp mem with h | mem
    · cases h
      decide
    · rcases List.mem_cons.mp mem with h | mem
      · cases h
        decide
      · simp [Selection.inFragment] at mem
  | spread mem => simp [selections, Selection.inFragment] at mem
  | inline mem entered inside =>
    obtain ⟨-, rfl⟩ : _ ∧ _ = [Selection.field (selected (lit "f") (lit "y")) none] := by
      simpa [selections, Selection.inFragment] using mem
    cases inside with
    | field mem =>
      obtain ⟨rfl, -⟩ := Selection.field.inj (List.mem_singleton.mp mem)
      decide
    | spread mem => simp at mem
    | inline mem => simp at mem

theorem spoils_failing : fault.Spoils ⟨.object query, lit "Query"⟩ selections field failing where
  declared := ⟨_, rfl, rfl⟩
  resolved := by decide
  keys _ _ := responseName_mem_keys_iff
  others t _ hn := by
    have hname : t.name ≠ lit "f" := hn
    simp only [failing, hname, if_false]
    exact ⟨_, _, appends_field _ _ _, appends_field _ _ _⟩
  first t _ _ := ⟨.ok (.scalar (.int 1)), _, nofun, appends_field _ _ _⟩
  second t _ hn := by
    have hname : t.name = lit "f" := hn
    simp only [failing, hname, if_true]
    exact .throw _

theorem fault_isIsolated_clinic : ∃ (fields : Keyed Value) (es es' : List ExecutionError),
    Appends ((Node.mk (lit "Query") (lit "Query") field (fun _ => .none) .none).resolve fault.place)
      (.ok (.object fields)) es ∧
    Appends ((Node.mk (lit "Query") (lit "Query") failing (fun _ => .none) .none).resolve
      fault.place) (.ok (.object (fault.nulls fields))) es' ∧
    es'.Perm (es.filter (fun e => !fault.covers e) ++
      [⟨.origin, [.key (lit "x")], .ofText (lit "no f")⟩,
        ⟨.origin, [.key (lit "y")], .ofText (lit "no f")⟩]) := by
  have htype : fault.place.scope.schema.type? (lit "Query") = some (.object query) := rfl
  obtain ⟨r, r', es, es', ts, hx, hx', hends, hcalls, -, hperm⟩ :=
    Node.fault_isIsolated rfl rfl htype spoils_failing ⟨[], ()⟩
  have hthrown : fault.thrown ts = [⟨.origin, [.key (lit "x")], .ofText (lit "no f")⟩,
      ⟨.origin, [.key (lit "y")], .ofText (lit "no f")⟩] := by
    rw [← hcalls]
    rfl
  rw [hthrown] at hperm
  have hrun := congrArg Prod.fst (hx ⟨[], ()⟩)
  rcases hends with ⟨v, rfl, -⟩ | ⟨rfl, -⟩ | ⟨fields, rfl, rfl⟩
  · cases hrun
  · cases hrun
  · exact ⟨fields, es, es', hx, hx', hperm⟩

end Clinic

end GraphQL
