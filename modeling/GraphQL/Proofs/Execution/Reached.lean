import GraphQL.Execution.Operation
import GraphQL.Proofs.Execution.Plans
import GraphQL.Proofs.Schema.Subtypes
import GraphQL.Proofs.Validation.Checked

/-! Where execution can come to. Whatever the objects are that resolvers give, each cursor has a
type of the schema, and selections that a valid document makes on some type. -/

namespace GraphQL

/-- Fragments that are as the rules ask, on types of the schema. -/
structure Scope.Checked (scope : Scope) : Prop where
  named : scope.schema.WellNamed
  conditions : ∀ f ∈ scope.fragments, (scope.schema.type? f.condition.value).isSome
  fragments : ∀ f ∈ scope.fragments,
    SelectionSet.Checked scope.schema scope.fragments (scope.schema.type? f.condition.value)
      f.selections

mutual

/-- The cursors that a step hands on, to resolvers of fields and for changes of type. -/
def Step.cursors : Step → List Cursor
  | .typename _ => []
  | .field task => [task.cursor]
  | .splice plan => (plan ()).cursors
  | .narrow n plan => n.cursor :: (plan ()).cursors

def Plan.cursors : Plan → List Cursor
  | .done => []
  | .stop _ => []
  | .step s rest => s.cursors ++ rest.cursors

end

theorem Step.mem_cursors_ofInline {head : InlineHead} {inner c : Cursor} {plan : Unit → Plan}
    (h : c ∈ (Step.ofInline head inner plan).cursors) : c = inner ∨ c ∈ (plan ()).cursors := by
  unfold ofInline at h
  cases hc : head.condition with
  | none =>
    rw [hc] at h
    exact .inr h
  | some condition =>
    rw [hc] at h
    exact List.mem_cons.mp h

/-- The cursors that execution comes to from one on: those that plans hand on, whatever object is
planned for, and those of list items. -/
inductive Cursor.Reached (start : Cursor) : Cursor → Prop where
  | start : Reached start start
  | planned {c c' : Cursor} {selections : SelectionSet} (h : Reached start c)
      (selected : c.selections = some selections) (subject : Subject)
      (planned : c' ∈ (Plan.ofSelectionSet subject c selections).cursors) : Reached start c'
  | item {c : Cursor} (h : Reached start c) (i : Nat) : Reached start (c.atIndex i)

/-- A cursor on a type of the schema, with selections that are as the rules ask on some type. -/
structure Cursor.IsChecked (scope : Scope) (c : Cursor) : Prop where
  inScope : c.scope = scope
  known : ∃ name, scope.schema.type? name = some c.currentType.innermost
  selections : ∀ xs, c.selections = some xs →
    ∃ bound, SelectionSet.Checked scope.schema scope.fragments bound xs

theorem TypePosition.innermost_of_element? {p e : TypePosition} (h : p.element? = some e) :
    e.innermost = p.innermost := by
  rcases p with t | inner | ⟨element, size⟩
  · cases h
  · cases inner with
    | list element size =>
      cases h
      rfl
    | _ => cases h
  · cases h
    rfl

theorem TypePosition.innermost_wrap (refusesNull : Bool) (p : TypePosition) :
    (p.wrap refusesNull).innermost = p.innermost := by
  cases refusesNull <;> rfl

theorem Schema.lookup?_of_position {s : Schema} {r : TypeRef} {p : TypePosition}
    (h : s.position r = .ok p) : s.lookup? r = some p.innermost := by
  induction r generalizing p with
  | named name nonNull =>
    cases ht : s.type? name with
    | none =>
      rw [position, requireType, ht] at h
      cases h
    | some t =>
      rw [position, requireType_of_type? ht] at h
      obtain rfl := Except.ok.inj h
      rw [TypePosition.innermost_wrap]
      exact ht
  | list element size nonNull ih =>
    cases he : s.position element with
    | error v =>
      rw [position, he] at h
      cases h
    | ok e =>
      rw [position, he] at h
      obtain rfl := Except.ok.inj h
      have hinnermost := ih he
      rw [TypePosition.innermost_wrap]
      exact hinnermost

theorem Schema.type?_of_position {s : Schema} {r : TypeRef} {p : TypePosition}
    (h : s.position r = .ok p) : ∃ name, s.type? name = some p.innermost :=
  ⟨r.innermostName, lookup?_of_position h⟩

namespace Cursor.IsChecked

variable {scope : Scope} {c : Cursor}

theorem atIndex (h : c.IsChecked scope) (i : Nat) : (c.atIndex i).IsChecked scope := by
  refine ⟨h.inScope, ?_, h.selections⟩
  obtain ⟨name, hname⟩ := h.known
  refine ⟨name, hname.trans (congrArg some ?_)⟩
  unfold Cursor.atIndex
  cases he : c.currentType.element? with
  | none => rfl
  | some e => exact (TypePosition.innermost_of_element? he).symm

theorem atField (h : c.IsChecked scope) {field : SelectedField} {body : Option SelectionSet}
    {below : Cursor} (hc : c.atField field body = .ok below)
    (hb : ∀ xs, body = some xs → ∃ bound,
      SelectionSet.Checked scope.schema scope.fragments bound xs) : below.IsChecked scope := by
  obtain ⟨type, htype, rfl⟩ := Cursor.exists_of_atField hc
  rw [h.inScope] at htype
  exact ⟨h.inScope, Schema.type?_of_position htype, hb⟩

theorem atInline (h : c.IsChecked scope) (condition : Option (Located Text)) {body : SelectionSet}
    {bound : Option TypeDef} (hb : SelectionSet.Checked scope.schema scope.fragments bound body) :
    (c.atInline condition body).IsChecked scope := by
  refine ⟨h.inScope, ?_, fun xs hxs => ⟨bound, Option.some.inj hxs ▸ hb⟩⟩
  unfold Cursor.atInline
  cases condition with
  | none => exact h.known
  | some condition =>
    cases ht : c.scope.schema.type? condition.value with
    | none => simpa [ht] using h.known
    | some t =>
      rw [h.inScope] at ht
      exact ⟨condition.value, by simp [h.inScope, ht, TypePosition.innermost]⟩

end Cursor.IsChecked

namespace Plan

variable {scope : Scope} {subject : Subject} {expand : Expand}

mutual

theorem isChecked_ofSelection (hs : scope.Checked)
    (hexpand : ∀ c, ∀ f ∈ scope.fragments, c.IsChecked scope →
      ∀ c' ∈ (expand c f).cursors, c'.IsChecked scope) :
    ∀ (x : Selection) (rest : SelectionSet) (bound : Option TypeDef) (c : Cursor),
      c.IsChecked scope → SelectionSet.Checked scope.schema scope.fragments bound (x :: rest) →
      ∀ s, ofSelection subject expand c x = .ok (some s) → ∀ c' ∈ s.cursors, c'.IsChecked scope
  | .field head body, rest, bound, c, hc, h, s, hx, c', hc' => by
    obtain ⟨-, hfield⟩ := ofField_of_ofSelection hx
    rcases ofField_cases_of_ok hfield with ⟨-, rfl⟩ | ⟨declaration, below, -, hbelow, rfl⟩
    · simp [Step.cursors] at hc'
    · obtain rfl : c' = below := by simpa [Step.cursors] using hc'
      refine hc.atField hbelow fun xs hxs => ?_
      subst hxs
      exact ⟨_, h.body⟩
  | .spread sp, rest, bound, c, hc, h, s, hx, c', hc' => by
    obtain ⟨f, hput, rfl⟩ := spreadOn_of_ofSelection hx
    have hf := Scope.mem_of_requireFragment (Scope.spreadOn_iff.mp hput).2.1
    exact hexpand c f (hc.inScope ▸ hf) hc c' hc'
  | .inline head body, rest, bound, c, hc, h, s, hx, c', hc' => by
    obtain ⟨-, rfl⟩ := entersInline_of_ofSelection hx
    have hinner := hc.atInline head.condition h.inside
    rcases Step.mem_cursors_ofInline hc' with rfl | hc'
    · exact hinner
    · exact isChecked_ofSelections hs hexpand body _ _ hinner h.inside c' hc'

theorem isChecked_ofSelections (hs : scope.Checked)
    (hexpand : ∀ c, ∀ f ∈ scope.fragments, c.IsChecked scope →
      ∀ c' ∈ (expand c f).cursors, c'.IsChecked scope) :
    ∀ (xs : List Selection) (bound : Option TypeDef) (c : Cursor),
      c.IsChecked scope → SelectionSet.Checked scope.schema scope.fragments bound xs →
      ∀ c' ∈ (ofSelections subject expand c xs).cursors, c'.IsChecked scope
  | [], _, _, _, _, _, hc' => by simp [ofSelections, cursors] at hc'
  | x :: rest, bound, c, hc, h, c', hc' => by
    have hrest := isChecked_ofSelections hs hexpand rest bound c hc h.tail
    unfold ofSelections at hc'
    rcases hx : ofSelection subject expand c x with v | _ | s
    · simp [hx, cursors] at hc'
    · rw [hx] at hc'
      exact hrest c' hc'
    · rw [hx] at hc'
      rcases List.mem_append.mp hc' with hc' | hc'
      · exact isChecked_ofSelection hs hexpand x rest bound c hc h s hx c' hc'
      · exact hrest c' hc'

end

theorem isChecked_expandUpTo (hs : scope.Checked) (depth : Nat) :
    ∀ c, ∀ f ∈ scope.fragments, c.IsChecked scope →
      ∀ c' ∈ (expandUpTo subject depth c f).cursors, c'.IsChecked scope := by
  induction depth with
  | zero => simp [expandUpTo, cursors]
  | succ depth ih =>
    exact fun c f hf hc => isChecked_ofSelections hs ih f.selections _ c hc (hs.fragments f hf)

end Plan

/-- Whatever execution comes to in a valid document is as the rules ask. -/
theorem Cursor.Reached.isChecked {scope : Scope} (hs : scope.Checked) {start c : Cursor}
    (h : start.Reached c) (hstart : start.IsChecked scope) : c.IsChecked scope := by
  induction h with
  | start => exact hstart
  | planned h selected subject planned ih =>
    obtain ⟨bound, hbound⟩ := ih.selections _ selected
    exact Plan.isChecked_ofSelections hs (Plan.isChecked_expandUpTo hs _) _ bound _ ih hbound _
      planned
  | item h i ih => exact ih.atIndex i

theorem Operation.isChecked_cursor {s : Schema} {doc : Document} {op : Operation}
    {settings : Settings} {root : TypeDef} (hdoc : doc.Checked s) (hop : op ∈ doc.operations)
    (hroot : s.root? op.type = some root) :
    (op.cursor (op.scope s doc settings) root).IsChecked (op.scope s doc settings) := by
  obtain ⟨name, -, hname⟩ := Option.bind_eq_some_iff.mp hroot
  have hsel : SelectionSet.Checked s doc.fragments (some root) op.selections :=
    hroot ▸ hdoc.operations op hop
  unfold cursor
  split <;> exact ⟨rfl, ⟨name, hname⟩, fun xs hxs => ⟨some root, Option.some.inj hxs ▸ hsel⟩⟩

end GraphQL
