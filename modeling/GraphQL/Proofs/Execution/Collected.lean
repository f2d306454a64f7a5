import Mathlib.Data.List.Forall2
import GraphQL.Proofs.Execution.Selected

/-! The fields that selections come to on an object, in order. A plan has them as its leaves, as far
as planning comes. -/

namespace GraphQL

section Lists

variable {α β γ : Type} {R : α → β → Prop}

open List in
theorem sublistForall₂_append {as as' : List α} {bs bs' : List β} (h : SublistForall₂ R as bs)
    (h' : SublistForall₂ R as' bs') : SublistForall₂ R (as ++ as') (bs ++ bs') := by
  obtain ⟨cs, hr, hs⟩ := sublistForall₂_iff.mp h
  obtain ⟨cs', hr', hs'⟩ := sublistForall₂_iff.mp h'
  exact sublistForall₂_iff.mpr ⟨cs ++ cs', rel_append hr hr', hs.append hs'⟩

theorem sublistForall₂_of_forall₂ {as : List α} {bs : List β} (h : List.Forall₂ R as bs) :
    List.SublistForall₂ R as bs :=
  List.sublistForall₂_iff.mpr ⟨bs, h, .refl _⟩

theorem sublistForall₂_of_sublist {as bs : List α} {cs : List β}
    (h : as.Sublist bs) (hr : List.SublistForall₂ R bs cs) : List.SublistForall₂ R as cs := by
  induction hr generalizing as with
  | nil =>
    obtain rfl := List.sublist_nil.mp h
    exact .nil
  | cons hab _ ih =>
    cases h with
    | cons _ h => exact .cons_right (ih h)
    | cons_cons _ h => exact .cons hab (ih h)
  | cons_right _ ih => exact .cons_right (ih h)

theorem sublist_map_of_sublistForall₂ {f : α → γ} {g : β → γ}
    {as : List α} {bs : List β} (h : List.SublistForall₂ R as bs)
    (hr : ∀ a ∈ as, ∀ b, R a b → f a = g b) : (as.map f).Sublist (bs.map g) := by
  induction h with
  | nil => exact List.nil_sublist _
  | cons hab _ ih =>
    rw [List.map_cons, List.map_cons, hr _ List.mem_cons_self _ hab]
    exact (ih fun a ha => hr a (List.mem_cons_of_mem _ ha)).cons_cons _
  | cons_right _ ih => exact (ih hr).cons _

theorem forall_mem_of_forall₂ {P : β → Prop} {as : List α}
    {bs : List β} (h : List.Forall₂ R as bs) (hr : ∀ a b, R a b → P b) : ∀ b ∈ bs, P b := by
  induction h with
  | nil => simp
  | cons hab _ ih => exact List.forall_mem_cons.mpr ⟨hr _ _ hab, ih⟩

end Lists

/-- A leaf of a plan on a type is the selection of a field that the type has. -/
def Leaf.Selects (vars : Variables) (t : TypeDef) (f : RootField) : Leaf → Prop
  | .typename key => f.head.name.value = lit "__typename" ∧ f.head.responseName = key
  | .field task => ∃ declaration, t.field? f.head.name.value = some declaration ∧
      task.key = f.head.responseName ∧ task.name = f.head.name.value ∧
      task.arguments = .ofField vars f.head declaration.arguments ∧
      task.cursor.field = some ⟨f.head, declaration⟩ ∧ task.cursor.selections = f.selections

namespace RootField

variable {scope : Scope} {o : Text} {expand : Expand}

theorem exists_of_ofSelections_cons {x : Selection} {rest : SelectionSet} {fields : List RootField}
    (h : ofSelections scope o expand (x :: rest) = .ok fields) :
    ∃ first others, ofSelection scope o expand x = .ok first ∧
      ofSelections scope o expand rest = .ok others ∧ fields = first ++ others := by
  rw [ofSelections] at h
  cases hx : ofSelection scope o expand x with
  | error v => simp [hx, bind, Except.bind] at h
  | ok first =>
    cases hr : ofSelections scope o expand rest with
    | error v => simp [hx, hr, bind, Except.bind] at h
    | ok others =>
      simp only [hx, hr, bind, Except.bind, pure, Except.pure, Except.ok.injEq] at h
      exact ⟨first, others, rfl, rfl, h.symm⟩

/-- What is collected from a selection that is not excluded. -/
def enter (scope : Scope) (o : Text) (expand : Expand) :
    Selection → Except Violation (List RootField)
  | .field head body => .ok [⟨head, body⟩]
  | .spread sp => do
    let f ← scope.requireFragment sp.name.value
    if ← scope.schema.meetsCondition f.condition.value o then expand f else return []
  | .inline head body =>
    match head.condition with
    | none => ofSelections scope o expand body
    | some condition => do
      if ← scope.schema.meetsCondition condition.value o then ofSelections scope o expand body
      else return []

theorem ofSelection_eq (x : Selection) : ofSelection scope o expand x =
    (Directives.exclude scope.vars (x.directives.getD [])).bind fun excluded =>
      if excluded then .ok [] else enter scope o expand x := by
  cases x <;> rfl

end RootField

section Planning

variable {scope : Scope} {subject : Subject}

theorem Step.leaves_ofInline (head : InlineHead) (inner : Cursor) (plan : Unit → Plan) :
    (Step.ofInline head inner plan).leaves = (plan ()).leaves := by
  unfold ofInline
  cases head.condition <;> rfl

namespace Plan

variable {expand : Expand} {collect : RootField.Expand}

/-- The leaves of a plan are the fields that are collected, in order, as far as planning comes. -/
abbrev Covers (scope : Scope) (subject : Subject) (p : Plan)
    (x : Except Violation (List RootField)) : Prop :=
  ∀ fields, x = .ok fields →
    List.SublistForall₂ (fun l f => l.Selects scope.vars subject.type f) p.leaves fields

theorem selects_of_ofField {c : Cursor} {head : FieldHead} {body : Option SelectionSet} {s : Step}
    (h : ofField subject c head body = .ok s) :
    List.Forall₂ (fun l f => l.Selects c.scope.vars subject.type f) s.leaves [⟨head, body⟩] := by
  rcases ofField_cases_of_ok h with ⟨hn, rfl⟩ | ⟨declaration, below, hd, hc, rfl⟩
  · exact .cons ⟨hn, rfl⟩ .nil
  · obtain ⟨type, -, rfl⟩ := Cursor.exists_of_atField hc
    exact .cons ⟨declaration, hd, rfl, rfl, rfl, rfl, rfl⟩ .nil

mutual

theorem covers_ofSelection (hexpand : ∀ c f, c.scope = scope →
      (expand c f).Covers scope subject (collect f)) :
    ∀ (x : Selection) (c : Cursor), c.scope = scope →
      ∀ s, ofSelection subject expand c x = .ok (some s) → ∀ fields,
        RootField.ofSelection scope subject.objectName collect x = .ok fields →
        List.SublistForall₂ (fun l f => l.Selects scope.vars subject.type f) s.leaves fields
  | .field head body, c, hc, s, hs, fields, hf => by
    obtain ⟨hx, hfield⟩ := ofField_of_ofSelection hs
    rw [hc] at hx
    have hincluded : Directives.exclude scope.vars
        ((Selection.field head body).directives.getD []) = .ok false := hx
    rw [RootField.ofSelection_eq, hincluded] at hf
    obtain rfl : [⟨head, body⟩] = fields := Except.ok.inj hf
    exact sublistForall₂_of_forall₂ (hc ▸ selects_of_ofField hfield)
  | .spread sp, c, hc, s, hs, fields, hf => by
    obtain ⟨f, hput, rfl⟩ := spreadOn_of_ofSelection hs
    rw [hc] at hput
    rw [RootField.ofSelection_spread, hput] at hf
    exact hexpand c f hc fields hf
  | .inline head body, c, hc, s, hs, fields, hf => by
    obtain ⟨hentered, rfl⟩ := entersInline_of_ofSelection hs
    rw [hc] at hentered
    rw [RootField.ofSelection_inline, hentered] at hf
    rw [Step.leaves_ofInline]
    exact covers_ofSelections hexpand body (c.atInline head.condition body) hc fields hf

theorem covers_ofSelections (hexpand : ∀ c f, c.scope = scope →
      (expand c f).Covers scope subject (collect f)) :
    ∀ (xs : List Selection) (c : Cursor), c.scope = scope →
      (ofSelections subject expand c xs).Covers scope subject
        (RootField.ofSelections scope subject.objectName collect xs)
  | [], _, _, _, _ => .nil
  | x :: rest, c, hc, fields, hf => by
    obtain ⟨first, others, hfirst, hothers, rfl⟩ := RootField.exists_of_ofSelections_cons hf
    have hrest := covers_ofSelections hexpand rest c hc others hothers
    unfold ofSelections
    rcases hx : ofSelection subject expand c x with v | _ | s
    · exact .nil
    · exact sublistForall₂_append (List.SublistForall₂.nil : List.SublistForall₂ _ [] first) hrest
    · have hstep := covers_ofSelection hexpand x c hc s hx first hfirst
      exact sublistForall₂_append hstep hrest

end

theorem covers_expandUpTo (depth : Nat) : ∀ c f, c.scope = scope →
    (expandUpTo subject depth c f).Covers scope subject
      (RootField.expandUpTo scope subject.objectName depth f) := by
  induction depth with
  | zero => exact fun _ _ _ _ hf => nomatch hf
  | succ depth ih => exact fun c f hc => covers_ofSelections ih f.selections c hc

/-- What is planned on an object are the fields that selections come to there. -/
theorem covers_ofSelectionSet (subject : Subject) {c : Cursor} (hc : c.scope = scope)
    (xs : SelectionSet) :
    (ofSelectionSet subject c xs).Covers scope subject
      (RootField.ofSelectionSet scope subject.objectName xs) := by
  unfold ofSelectionSet RootField.ofSelectionSet
  rw [hc]
  exact covers_ofSelections (covers_expandUpTo _) xs c hc

end Plan

end Planning

end GraphQL
