import Mathlib.Tactic.ByContra
import GraphQL.Execution.Cursor
import GraphQL.Validation.Rules

/-! What a document without reports is known to satisfy. The rules look at selections with the type
they are made on; execution meets them one level at a time. -/

namespace GraphQL

/-- What the rules ask of a selection: a field belongs to its type, a spread names a fragment, and a
type condition names a type. -/
def Visit.Checked (s : Schema) (fragments : List Fragment) (v : Visit) : Prop :=
  match v.selection with
  | .field head _ => ∀ parent, v.parent = some parent →
      Rules.hasField parent head.name.value = true
  | .spread sp => ∃ f ∈ fragments, f.name.value = sp.name.value
  | .inline head _ => ∀ condition, head.condition = some condition →
      (s.type? condition.value).isSome

/-- Selections on a type, all of them and those inside them as the rules ask. -/
def SelectionSet.Checked (s : Schema) (fragments : List Fragment) (parent : Option TypeDef)
    (selections : SelectionSet) : Prop :=
  ∀ v ∈ Visit.ofSelections s parent selections, v.Checked s fragments

/-- A document whose selections are as the rules ask, on roots and type conditions that exist. -/
structure Document.Checked (s : Schema) (doc : Document) : Prop where
  operations : ∀ op ∈ doc.operations,
    SelectionSet.Checked s doc.fragments (s.root? op.type) op.selections
  conditions : ∀ f ∈ doc.fragments, (s.type? f.condition.value).isSome
  fragments : ∀ f ∈ doc.fragments,
    SelectionSet.Checked s doc.fragments (s.type? f.condition.value) f.selections

namespace SelectionSet.Checked

variable {s : Schema} {fragments : List Fragment} {parent : Option TypeDef} {rest : SelectionSet}

theorem tail {x : Selection} (h : Checked s fragments parent (x :: rest)) :
    Checked s fragments parent rest :=
  fun v hv => h v (List.mem_append_right _ hv)

theorem head {x : Selection} (h : Checked s fragments parent (x :: rest)) :
    ∀ v ∈ Visit.ofSelection s parent x, v.Checked s fragments :=
  fun v hv => h v (List.mem_append_left _ hv)

theorem hasField {head : FieldHead} {body : Option SelectionSet} {t : TypeDef}
    (h : Checked s fragments (some t) (.field head body :: rest)) :
    Rules.hasField t head.name.value = true := by
  cases body with
  | none => exact h.head ⟨.field head none, some t⟩ (by simp [Visit.ofSelection]) t rfl
  | some body =>
    exact h.head ⟨.field head (some body), some t⟩ (by simp [Visit.ofSelection]) t rfl

theorem body {head : FieldHead} {body : SelectionSet}
    (h : Checked s fragments parent (.field head (some body) :: rest)) :
    Checked s fragments (Visit.typeBelow s parent head.name.value) body :=
  fun v hv => h.head v (by simp [Visit.ofSelection, hv])

theorem spread {sp : Spread} (h : Checked s fragments parent (.spread sp :: rest)) :
    ∃ f ∈ fragments, f.name.value = sp.name.value :=
  h.head ⟨.spread sp, parent⟩ (by simp [Visit.ofSelection])

theorem condition {head : InlineHead} {body : SelectionSet}
    (h : Checked s fragments parent (.inline head body :: rest)) {condition : Located Text}
    (hc : head.condition = some condition) : (s.type? condition.value).isSome :=
  h.head ⟨.inline head body, parent⟩ (by simp [Visit.ofSelection]) condition hc

theorem inside {head : InlineHead} {body : SelectionSet}
    (h : Checked s fragments parent (.inline head body :: rest)) :
    Checked s fragments (Visit.typeInside s parent head.condition) body :=
  fun v hv => h.head v (by simp [Visit.ofSelection, hv])

end SelectionSet.Checked

namespace Visit

mutual

theorem spread_mem_ofSelection {s : Schema} {sp : Spread} :
    ∀ (x : Selection) (parent : Option TypeDef), sp ∈ x.spreads →
      ∃ p, ⟨.spread sp, p⟩ ∈ ofSelection s parent x
  | .field _ none, _, h => by simp [Selection.spreads] at h
  | .field head (some body), parent, h => by
    obtain ⟨p, hp⟩ := spread_mem_ofSelections (s := s) body (typeBelow s parent head.name.value) h
    exact ⟨p, by simp [ofSelection, hp]⟩
  | .spread sp', parent, h => by
    obtain rfl : sp = sp' := by simpa [Selection.spreads] using h
    exact ⟨parent, by simp [ofSelection]⟩
  | .inline head body, parent, h => by
    obtain ⟨p, hp⟩ := spread_mem_ofSelections (s := s) body (typeInside s parent head.condition) h
    exact ⟨p, by simp [ofSelection, hp]⟩

theorem spread_mem_ofSelections {s : Schema} {sp : Spread} :
    ∀ (xs : List Selection) (parent : Option TypeDef), sp ∈ Selection.spreadsOf xs →
      ∃ p, ⟨.spread sp, p⟩ ∈ ofSelections s parent xs
  | [], _, h => by simp [Selection.spreadsOf] at h
  | x :: rest, parent, h => by
    rcases List.mem_append.mp h with h | h
    · obtain ⟨p, hp⟩ := spread_mem_ofSelection (s := s) x parent h
      exact ⟨p, List.mem_append_left _ hp⟩
    · obtain ⟨p, hp⟩ := spread_mem_ofSelections (s := s) rest parent h
      exact ⟨p, List.mem_append_right _ hp⟩

end

end Visit

theorem SelectionSet.Checked.spreads {s : Schema} {fragments : List Fragment}
    {parent : Option TypeDef} {xs : SelectionSet} (h : Checked s fragments parent xs) :
    ∀ sp ∈ Selection.spreadsOf xs, ∃ f ∈ fragments, f.name.value = sp.name.value := by
  intro sp hsp
  obtain ⟨p, hp⟩ := Visit.spread_mem_ofSelections (s := s) xs parent hsp
  exact h _ hp

theorem Scope.exists_requireFragment {scope : Scope} {name : Text}
    (h : ∃ f ∈ scope.fragments, f.name.value = name) :
    ∃ f ∈ scope.fragments, scope.requireFragment name = .ok f := by
  obtain ⟨f, hf, hn⟩ := h
  have hs : (scope.fragment? name).isSome := by
    rw [Scope.fragment?, List.find?_isSome]
    exact ⟨f, hf, by simp [hn]⟩
  obtain ⟨g, hg⟩ := Option.isSome_iff_exists.mp hs
  exact ⟨g, List.mem_of_find?_eq_some hg, by simp [Scope.requireFragment, hg]⟩

theorem Scope.mem_of_requireFragment {scope : Scope} {name : Text} {f : Fragment}
    (h : scope.requireFragment name = .ok f) : f ∈ scope.fragments := by
  unfold Scope.requireFragment at h
  split at h
  · rename_i g hg
    exact Except.ok.inj h ▸ List.mem_of_find?_eq_some hg
  · cases h

namespace Document

variable {s : Schema} {doc : Document}

theorem reports_of_isValid {v : Validator} (h : v.isValid s doc = true) : v.reports s doc = [] := by
  have hl := congrArg List.length (List.isEmpty_iff.mp h)
  rw [Validator.validate, List.length_mergeSort] at hl
  exact List.length_eq_zero_iff.mp hl

theorem check_of_isValid (h : Validator.isValid Rules.builtin s doc = true) :
    Rules.knownFragmentNames.check s doc [] = [] ∧ Rules.knownTypeNames.check s doc [] = [] ∧
      Rules.fieldsOnCorrectType.check s doc [] = [] ∧ (Cycles.search doc.fragments).found = [] := by
  have hr := reports_of_isValid h
  simp only [Validator.reports, Rules.builtin, List.foldl_cons, List.foldl_nil, List.nil_append,
    List.append_eq_nil_iff] at hr
  obtain ⟨⟨⟨h1, h2⟩, h3⟩, h4⟩ := hr
  rw [h1] at h2 h3
  exact ⟨h1, h2, by simpa [h2] using h3, h4⟩

/-- A document without reports is as the rules ask. -/
theorem checked_of_isValid (h : Validator.isValid Rules.builtin s doc = true) : doc.Checked s := by
  obtain ⟨hfrag, htype, hfield, -⟩ := check_of_isValid h
  have hknown (name : Text) (place : Position) (hn : Rules.unknownType s name place = []) :
      (s.type? name).isSome := by
    by_contra hc
    simp [Rules.unknownType, hc] at hn
  obtain ⟨hheads, hconds⟩ := List.append_eq_nil_iff.mp htype
  have hvisit : ∀ v ∈ Visit.ofDocument s doc, v.Checked s doc.fragments := by
    intro v hv
    obtain ⟨selection, parent⟩ := v
    cases selection with
    | field head body =>
      rintro p rfl
      have := List.filterMap_eq_nil_iff.mp hfield _ hv
      by_contra hc
      simp [hc] at this
    | spread sp =>
      have := List.filterMap_eq_nil_iff.mp hfrag _ hv
      simpa [Visit.Checked] using this
    | inline head body =>
      intro condition hcond
      have := List.flatMap_eq_nil_iff.mp hconds _ hv
      obtain ⟨c, directives, span⟩ := head
      cases hcond
      exact hknown _ _ this
  have hdef : ∀ d ∈ doc, ∀ v ∈ Visit.ofDefinition s d, v.Checked s doc.fragments :=
    fun d hd v hv => hvisit v (List.mem_flatMap.mpr ⟨d, hd, hv⟩)
  have hmemop : ∀ op ∈ doc.operations, Definition.operation op ∈ doc := by
    intro op hop
    obtain ⟨d, hd, he⟩ := List.mem_filterMap.mp hop
    cases d with
    | operation op' => exact Option.some.inj he ▸ hd
    | fragment f => cases he
  have hmemf : ∀ f ∈ doc.fragments, Definition.fragment f ∈ doc := by
    intro f hf
    obtain ⟨d, hd, he⟩ := List.mem_filterMap.mp hf
    cases d with
    | operation op => cases he
    | fragment f' => exact Option.some.inj he ▸ hd
  refine ⟨fun op hop => hdef _ (hmemop op hop), fun f hf => ?_, fun f hf => hdef _ (hmemf f hf)⟩
  exact hknown _ _ (List.flatMap_eq_nil_iff.mp hheads _ (hmemf f hf))

end Document

end GraphQL
