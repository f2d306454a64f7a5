import Mathlib.Data.List.Forall2
import GraphQL.Proofs.Execution.Plans
import GraphQL.Proofs.Value.Merge

/-! What becomes of an object when one of its fields refuses null. A field that is selected on the
object itself, by a spread or in an inline fragment without a condition, nulls the object; an inline
fragment with a condition keeps the null to itself and gives nothing. -/

namespace GraphQL

variable {σ : Type}

abbrev Outcomes := FieldTask → Except FieldError Value

def Outcomes.value (o : Outcomes) (t : FieldTask) : Value := (o t).toOption.getD .null

namespace Leaf

/-- `true` for a field that may not be null and fails or is null. -/
def refuses (o : Outcomes) : Leaf → Bool
  | typename _ => false
  | field t => t.nonNull && (o.value t).isNull

def entry (objectName : Text) (o : Outcomes) : Leaf → Text × Value
  | typename key => (key, .ofText objectName)
  | field t => (t.key, o.value t)

@[simp] theorem fst_entry (objectName : Text) (o : Outcomes) (l : Leaf) :
    (l.entry objectName o).1 = l.key := by
  cases l <;> rfl

end Leaf

mutual

/-- The leaves of a step that are not inside an inline fragment with a condition. -/
def Step.exposed : Step → List Leaf
  | .typename key => [.typename key]
  | .field task => [.field task]
  | .splice plan => (plan ()).exposed
  | .narrow _ _ => []

def Plan.exposed : Plan → List Leaf
  | .done => []
  | .stop _ => []
  | .step s rest => s.exposed ++ rest.exposed

end

mutual

/-- The leaves of a step without the inline fragments that are nulled. -/
def Step.kept (o : Outcomes) : Step → List Leaf
  | .typename key => [.typename key]
  | .field task => [.field task]
  | .splice plan => (plan ()).kept o
  | .narrow _ plan => if (plan ()).exposed.any (Leaf.refuses o) then [] else (plan ()).kept o

def Plan.kept (o : Outcomes) : Plan → List Leaf
  | .done => []
  | .stop _ => []
  | .step s rest => s.kept o ++ rest.kept o

end

/-- What a step gives: the entries that are kept, or nothing if it nulls the object. -/
def Step.outcome (objectName : Text) (o : Outcomes) (s : Step) : Outcome :=
  if s.exposed.any (Leaf.refuses o) then none else some ((s.kept o).map (Leaf.entry objectName o))

def Plan.outcome (objectName : Text) (o : Outcomes) (p : Plan) : Outcome :=
  if p.exposed.any (Leaf.refuses o) then none else some ((p.kept o).map (Leaf.entry objectName o))

section Leaves

variable {o : Outcomes}

mutual

theorem Step.exposed_sublist : ∀ s : Step, s.exposed.Sublist s.leaves
  | .typename _ => .refl _
  | .field _ => .refl _
  | .splice plan => Plan.exposed_sublist (plan ())
  | .narrow _ _ => List.nil_sublist _

theorem Plan.exposed_sublist : ∀ p : Plan, p.exposed.Sublist p.leaves
  | .done => .refl _
  | .stop _ => .refl _
  | .step s rest => (Step.exposed_sublist s).append (Plan.exposed_sublist rest)

end

mutual

theorem Step.kept_sublist : ∀ s : Step, (s.kept o).Sublist s.leaves
  | .typename _ => .refl _
  | .field _ => .refl _
  | .splice plan => Plan.kept_sublist (plan ())
  | .narrow _ plan => by
    unfold Step.kept
    split
    · exact List.nil_sublist _
    · exact Plan.kept_sublist (plan ())

theorem Plan.kept_sublist : ∀ p : Plan, (p.kept o).Sublist p.leaves
  | .done => .refl _
  | .stop _ => .refl _
  | .step s rest => (Step.kept_sublist s).append (Plan.kept_sublist rest)

end

mutual

theorem Step.kept_of_forall : ∀ s : Step, (∀ l ∈ s.leaves, l.refuses o = false) →
    s.kept o = s.leaves
  | .typename _, _ => rfl
  | .field _, _ => rfl
  | .splice plan, h => Plan.kept_of_forall (plan ()) h
  | .narrow _ plan, h => by
    have hexposed : (plan ()).exposed.any (Leaf.refuses o) = false := by
      rw [List.any_eq_false]
      intro l hl
      simp [h l ((plan ()).exposed_sublist.subset hl)]
    simpa [Step.kept, Step.leaves, hexposed] using Plan.kept_of_forall (plan ()) h

theorem Plan.kept_of_forall : ∀ p : Plan, (∀ l ∈ p.leaves, l.refuses o = false) →
    p.kept o = p.leaves
  | .done, _ => rfl
  | .stop _, _ => rfl
  | .step s rest, h => by
    have hs := Step.kept_of_forall s fun l hl => h l (List.mem_append_left _ hl)
    have hr := Plan.kept_of_forall rest fun l hl => h l (List.mem_append_right _ hl)
    simp only [Plan.kept, Plan.leaves, hs, hr]

end

end Leaves

/-- A computation that ends the same way wherever it starts. -/
def Yields {ε S α : Type} (x : ExceptT ε (StateM S) α) (r : Except ε α) : Prop :=
  ∀ s, (x.run.run s).1 = r

namespace Yields

variable {ε S α β : Type}

theorem pure (a : α) : Yields (pure a : ExceptT ε (StateM S) α) (.ok a) := fun _ => rfl

theorem bind {x : ExceptT ε (StateM S) α} {a : α} {f : α → ExceptT ε (StateM S) β}
    {r : Except ε β} (hx : Yields x (.ok a)) (hf : Yields (f a) r) : Yields (x >>= f) r := by
  intro s
  have hx := hx s
  rw [run_bind]
  rcases hr : x.run.run s with ⟨e | b, t⟩
  · rw [hr] at hx
    cases hx
  · rw [hr] at hx
    cases hx
    exact hf t

theorem toResolve {x : Run σ α} {a : α} (hx : Yields x (.ok a)) :
    Yields x.toResolve (.ok a) := by
  intro s
  rw [Run.run_toResolve, hx s]
  rfl

theorem captured {x : Resolve σ α} {r : Except FieldError α} (hx : Yields x (r.mapError .failure))
    (c : Cursor) (location : Position) : Yields (x.captured c location) (.ok r.toOption) := by
  intro s
  have hx := hx s
  rw [Resolve.run_captured]
  rcases hr : x.run.run s with ⟨(e | v) | a, t⟩
  all_goals
    rw [hr] at hx
    cases r <;> cases hx <;> rfl

end Yields

namespace Tasks

theorem yields_runInTurn {tasks : List (Run σ Outcome)} {outcomes : List Outcome}
    (h : List.Forall₂ (fun x r => Yields x (.ok r)) tasks outcomes) (merged : Keyed Value) :
    Yields (runInTurn tasks merged) (merge (outcomes.map .ok) merged) := by
  induction h generalizing merged with
  | nil => exact .pure _
  | @cons _ r _ _ hx _ ih =>
    refine .bind hx ?_
    cases r with
    | none => exact .pure _
    | some fields => exact ih _

theorem outcomes_of_yields {tasks : List (Run σ Outcome)} {outcomes : List Outcome}
    (h : List.Forall₂ (fun x r => Yields x (.ok r)) tasks outcomes) (s : Effects σ) :
    ((tasks.mapM ExceptT.run).run s).1 = outcomes.map .ok := by
  induction h generalizing s with
  | nil => rfl
  | cons hx _ ih => rw [run_mapM_cons, hx s, ih, List.map_cons]

/-- What tasks give does not depend on whether they run in turn or side by side. -/
theorem yields_run {tasks : Tasks σ} {outcomes : List Outcome} (hstop : tasks.stop = none)
    (h : List.Forall₂ (fun x r => Yields x (.ok r)) tasks.inOrder outcomes) (concurrent : Bool) :
    Yields (tasks.run concurrent) (merge (outcomes.map .ok) []) := by
  cases concurrent with
  | true =>
    intro s
    rw [run, if_pos rfl, run_runSideBySide, hstop, outcomes_of_yields h s]
  | false =>
    rw [run, if_neg (by simp), hstop]
    exact yields_runInTurn h []

end Tasks

def Plan.outcomes (objectName : Text) (o : Outcomes) : Plan → List Outcome
  | .done => []
  | .stop _ => []
  | .step s rest => s.outcome objectName o :: rest.outcomes objectName o

theorem Plan.merge_outcomes (objectName : Text) (o : Outcomes) :
    ∀ (p : Plan) (merged : Keyed Value), (p.leaves.map Leaf.key).Nodup →
      (∀ l ∈ p.leaves, l.key ∉ merged.keys) →
      Tasks.merge ((p.outcomes objectName o).map .ok) merged =
        .ok ((p.outcome objectName o).map (merged ++ ·))
  | .done, merged, _, _ => by simp [outcomes, outcome, exposed, kept, Tasks.merge]
  | .stop _, merged, _, _ => by simp [outcomes, outcome, exposed, kept, Tasks.merge]
  | .step s rest, merged, hn, hm => by
    rw [leaves, List.map_append, List.nodup_append] at hn
    obtain ⟨hns, hnr, hdisjoint⟩ := hn
    cases he : s.exposed.any (Leaf.refuses o) with
    | true => simp [outcomes, outcome, Step.outcome, exposed, he, Tasks.merge]
    | false =>
      -- keys are distinct, so merging puts the entries at the end
      have hkeys : Keyed.keys ((s.kept o).map (Leaf.entry objectName o)) =
          (s.kept o).map Leaf.key := by
        simp [Keyed.keys]
      have hsub := (Step.kept_sublist (o := o) s).map Leaf.key
      have hmerge : Value.mergeFields ((s.kept o).map (Leaf.entry objectName o)) merged =
          merged ++ (s.kept o).map (Leaf.entry objectName o) := by
        refine Value.mergeFields_of_disjoint (hkeys ▸ hns.sublist hsub) fun key hkey => ?_
        obtain ⟨l, hl, rfl⟩ := List.mem_map.mp (hkeys ▸ hkey)
        exact hm l (List.mem_append_left _ ((Step.kept_sublist s).subset hl))
      have hrest := merge_outcomes objectName o rest
        (merged ++ (s.kept o).map (Leaf.entry objectName o)) hnr fun l hl hmem => by
          rw [Keyed.keys_append, hkeys] at hmem
          rcases List.mem_append.mp hmem with hmem | hmem
          · exact hm l (List.mem_append_right _ hl) hmem
          · exact hdisjoint _ (hsub.subset hmem) _ (List.mem_map_of_mem hl) rfl
      simp only [outcomes, Step.outcome, he, Bool.false_eq_true, if_false, List.map_cons,
        Tasks.merge, hmerge, hrest]
      simp only [outcome, exposed, kept, List.any_append, he, Bool.false_or, List.map_append]
      split <;> simp

section

variable {h : Subject.Handlers σ} {o : Outcomes}

mutual

theorem Step.yields_run (hinto : ∀ condition c, h.into condition c = none) (concurrent : Bool) :
    ∀ s : Step, s.IsComplete → (s.leaves.map Leaf.key).Nodup →
      (∀ t, .field t ∈ s.leaves → Yields (h.field t) ((o t).mapError .failure)) →
      Yields (s.run h concurrent) (.ok (s.outcome h.objectName o))
  | .typename key, _, _, _ => .pure _
  | .field t, _, _, ho => by
    refine .bind ((ho t (by simp [Step.leaves])).captured _ _) ?_
    have hv : (o t).toOption.getD .null = o.value t := rfl
    rw [hv]
    cases hr : t.nonNull && (o.value t).isNull <;>
      simpa [Step.outcome, Step.exposed, Step.kept, Leaf.refuses, Leaf.entry, hr] using .pure _
  | .splice plan, hc, hn, ho => Plan.yields_run hinto concurrent (plan ()) hc hn ho
  | .narrow n plan, hc, hn, ho => by
    have hplan := Plan.yields_run hinto concurrent (plan ()) hc.2 hn ho
    unfold Step.run
    rw [hinto]
    refine .bind hplan ?_
    cases hr : (plan ()).exposed.any (Leaf.refuses o) <;>
      simpa [Step.outcome, Step.exposed, Step.kept, Plan.outcome, hr] using .pure _

theorem Plan.yields_tasks (hinto : ∀ condition c, h.into condition c = none) (concurrent : Bool) :
    ∀ p : Plan, p.IsComplete → (p.leaves.map Leaf.key).Nodup →
      (∀ t, .field t ∈ p.leaves → Yields (h.field t) ((o t).mapError .failure)) →
      (p.tasks h concurrent).stop = none ∧
        List.Forall₂ (fun x r => Yields x (.ok r)) (p.tasks h concurrent).inOrder
          (p.outcomes h.objectName o)
  | .done, _, _, _ => ⟨rfl, .nil⟩
  | .stop _, hc, _, _ => hc.elim
  | .step s rest, hc, hn, ho => by
    rw [Plan.leaves, List.map_append, List.nodup_append] at hn
    have hs := Step.yields_run hinto concurrent s hc.1 hn.1 fun t ht =>
      ho t (List.mem_append_left _ ht)
    obtain ⟨hstop, hrest⟩ := Plan.yields_tasks hinto concurrent rest hc.2 hn.2.1 fun t ht =>
      ho t (List.mem_append_right _ ht)
    exact ⟨hstop, .cons hs hrest⟩

theorem Plan.yields_run (hinto : ∀ condition c, h.into condition c = none) (concurrent : Bool)
    (p : Plan) (hc : p.IsComplete) (hn : (p.leaves.map Leaf.key).Nodup)
    (ho : ∀ t, .field t ∈ p.leaves → Yields (h.field t) ((o t).mapError .failure)) :
    Yields ((p.tasks h concurrent).run concurrent) (.ok (p.outcome h.objectName o)) := by
  obtain ⟨hstop, htasks⟩ := Plan.yields_tasks hinto concurrent p hc hn ho
  have hrun := Tasks.yields_run hstop htasks concurrent
  rw [Plan.merge_outcomes h.objectName o p [] hn (by simp [Keyed.keys])] at hrun
  simpa using hrun

end

end

/-- What a client counts on: an object is null exactly when one of its fields refuses null, wherever
the field is selected, and has every key that is selected otherwise. -/
structure Plan.Propagates (o : Outcomes) (p : Plan) (v : Value) : Prop where
  null : v.isNull = true ↔ ∃ l ∈ p.leaves, l.refuses o = true
  object : (¬ ∃ l ∈ p.leaves, l.refuses o = true) →
    ∃ fields, v = .object fields ∧ ∀ l ∈ p.leaves, l.key ∈ Keyed.keys fields

theorem Plan.outcome_eq_none_iff {objectName : Text} {o : Outcomes} {p : Plan} :
    p.outcome objectName o = none ↔ ∃ l ∈ p.exposed, l.refuses o = true := by
  simp [outcome]

theorem Outcome.isNull_toValue (outcome : Outcome) :
    outcome.toValue.isNull = true ↔ outcome = none := by
  cases outcome <;> simp [toValue, Value.isNull]

/-- Null reaches the object as a client counts on unless all fields that refuse it are inside inline
fragments with a condition. -/
theorem Plan.propagates_outcome_iff {objectName : Text} {o : Outcomes} {p : Plan} :
    p.Propagates o (p.outcome objectName o).toValue ↔
      ((∃ l ∈ p.leaves, l.refuses o = true) → ∃ l ∈ p.exposed, l.refuses o = true) := by
  have hnull := (Outcome.isNull_toValue (p.outcome objectName o)).trans outcome_eq_none_iff
  constructor
  · exact fun h hl => hnull.mp (h.null.mpr hl)
  · intro h
    refine ⟨⟨fun hn => ?_, fun hl => hnull.mpr (h hl)⟩, fun hl => ?_⟩
    · obtain ⟨l, hl, hr⟩ := hnull.mp hn
      exact ⟨l, p.exposed_sublist.subset hl, hr⟩
    · have hall : ∀ l ∈ p.leaves, l.refuses o = false :=
        fun l hm => by simpa using fun hr => hl ⟨l, hm, hr⟩
      have hexposed : ¬ ∃ l ∈ p.exposed, l.refuses o = true :=
        fun ⟨l, hm, hr⟩ => hl ⟨l, p.exposed_sublist.subset hm, hr⟩
      refine ⟨p.leaves.map (Leaf.entry objectName o), ?_, fun l hm => ?_⟩
      · simp [outcome, hexposed, Plan.kept_of_forall p hall, Outcome.toValue]
      · simpa [Keyed.keys] using ⟨l, hm, rfl⟩

/-- Resolving an object, in turn or side by side: it is null exactly when a field refuses null that is
not inside an inline fragment with a condition, and otherwise lacks the fields of those inline
fragments that hold such a field themselves. So a field that refuses null does not null the object if
it is only inside such fragments. -/
theorem Node.resolve_propagates_iff {typeName objectName : Text}
    {field : Text → FieldArguments → Cursor → Action σ} {c : Cursor} {type : TypeDef}
    {selections : SelectionSet} {p : Plan} {o : Outcomes}
    (ht : c.scope.schema.type? typeName = some type) (hsel : c.selections = some selections)
    (hp : Plan.ofSelectionSet ⟨type, objectName⟩ c selections = p) (hc : p.IsComplete)
    (hn : (p.leaves.map Leaf.key).Nodup)
    (ho : ∀ t, .field t ∈ p.leaves →
      Yields ((field t.name t.arguments t.cursor).run t.cursor) ((o t).mapError .failure)) :
    ∃ v, Yields ((Node.mk typeName objectName field (fun _ => .none) .none).resolve c) (.ok v) ∧
      (v.isNull = true ↔ ∃ l ∈ p.exposed, l.refuses o = true) ∧
      (v.isNull = false → v = .object ((p.kept o).map (Leaf.entry objectName o))) ∧
      (p.Propagates o v ↔
        ((∃ l ∈ p.leaves, l.refuses o = true) → ∃ l ∈ p.exposed, l.refuses o = true)) := by
  refine ⟨(p.outcome objectName o).toValue, ?_,
    (Outcome.isNull_toValue _).trans Plan.outcome_eq_none_iff, fun hv => ?_,
    Plan.propagates_outcome_iff⟩
  · have hrun := Plan.yields_run (h := ⟨typeName, objectName,
      fun t => (field t.name t.arguments t.cursor).run t.cursor, fun _ _ => none⟩)
      (fun _ _ => rfl) c.isConcurrent p hc hn ho
    have hselections := Cursor.resolveSelections_of_type (h := ⟨typeName, objectName,
      fun t => (field t.name t.arguments t.cursor).run t.cursor, fun _ _ => none⟩) ht selections
    unfold Node.resolve
    simp only [Override.run?, hsel]
    rw [hselections, hp]
    exact .toResolve (.bind hrun (.pure _))
  · unfold Plan.outcome at hv ⊢
    split
    · rename_i he
      simp [he, Outcome.toValue, Value.isNull] at hv
    · rfl

namespace Refusal

def query : ObjectDef :=
  ⟨lit "Query", none, [⟨lit "a", none, none, .named (lit "Int") true, .current⟩,
    ⟨lit "b", none, none, .named (lit "Int") false, .current⟩], []⟩

def schema : Schema :=
  ⟨[(lit "Int", .scalar Scalars.int), (lit "Query", .object query)], lit "Query", none, none, [],
    none⟩

/-- The first field in a fragment with a condition, the second one without. -/
def selections : SelectionSet :=
  [.inFragment (some (lit "Query")) [.ofName (lit "a") none], .ofName (lit "b") none]

def cursor : Cursor :=
  .root ⟨schema, [], [], none, false⟩ selections (.object query) .origin

def outcome (t : FieldTask) : Except FieldError Value :=
  if t.name = lit "a" then .error (.ofText (lit "no a")) else .ok (.scalar (.int 1))

def field (name : Text) (_ : FieldArguments) (_ : Cursor) : Action Unit :=
  if name = lit "a" then .fail (.ofText (lit "no a")) else .value (.scalar (.int 1))

theorem yields_field (t : FieldTask) :
    Yields ((field t.name t.arguments t.cursor).run t.cursor) ((outcome t).mapError .failure) := by
  intro s
  unfold field outcome
  split <;> rfl

def plan : Plan := .ofSelectionSet ⟨.object query, lit "Query"⟩ cursor selections

/-- The failing field is hidden by its fragment: the object is there without it. -/
theorem not_propagates : ∃ v,
    Yields ((Node.mk (lit "Query") (lit "Query") field (fun _ => .none) .none).resolve cursor)
      (.ok v) ∧ v.isNull = false ∧ ¬ plan.Propagates outcome v := by
  have htype : cursor.scope.schema.type? (lit "Query") = some (.object query) := rfl
  have hplan : Plan.ofSelectionSet ⟨.object query, lit "Query"⟩ cursor selections = plan := rfl
  have hcomplete : plan.IsComplete := ⟨⟨trivial, ⟨trivial, trivial⟩⟩, ⟨trivial, trivial⟩⟩
  have hkeys : (plan.leaves.map Leaf.key).Nodup := by decide
  obtain ⟨v, hrun, hnull, -, hiff⟩ := Node.resolve_propagates_iff htype rfl hplan hcomplete hkeys
    fun t _ => yields_field t
  have hexposed : ¬ ∃ l ∈ plan.exposed, l.refuses outcome = true := by decide
  have hleaves : ∃ l ∈ plan.leaves, l.refuses outcome = true := by decide
  refine ⟨v, hrun, ?_, fun h => hexposed (hiff.mp h hleaves)⟩
  simpa using fun h => hexposed (hnull.mp h)

end Refusal

end GraphQL
