import GraphQL.Proofs.Document.Exact
import GraphQL.Proofs.Token.Faults
import GraphQL.Proofs.Validation.Cycles

/-! What the rules report. A report quotes names only: names of the document, which were tokens of
its source, and names of types. -/

namespace GraphQL

/-- Names that a selection is written with, whatever can be selected where it stands. -/
def Selection.Mentions (x : Selection) (n : Text) : Prop :=
  ∀ schema fields, .name n ∈ x.pieces schema fields

/-- Names that a definition is written with, in any of its forms. -/
def Definition.Mentions (d : Definition) (n : Text) : Prop :=
  ∀ schema, ∀ form ∈ d.forms schema, .name n ∈ form

def Document.Mentions (doc : Document) (n : Text) : Prop := ∃ d ∈ doc, d.Mentions n

theorem Writes.mem_of_name {schema : Schema} {pieces : List Piece} {ts : List Token} {n : Text}
    (h : Writes schema pieces ts) (hn : .name n ∈ pieces) : .name n ∈ ts := by
  induction h with
  | nil => cases hn
  | @cons t piece ts pieces hfits _ ih =>
    rcases List.mem_cons.mp hn with rfl | hn
    · rw [fits_token.mp hfits]
      exact List.mem_cons_self
    · exact List.mem_cons_of_mem t (ih hn)

namespace Selection

variable {n : Text} {head : FieldHead} {inlineHead : InlineHead} {body : List Selection}

theorem mentions_field (head : FieldHead) (body : Option (List Selection)) :
    (field head body).Mentions head.name.value := by
  intro schema fields
  have hname : Piece.name head.name.value ∈ head.pieces schema fields :=
    List.mem_append_right _ List.mem_cons_self
  cases body with
  | none => exact hname
  | some body => exact List.mem_append_left _ hname

theorem mentions_spread (sp : Spread) : (spread sp).Mentions sp.name.value :=
  fun _ _ => List.mem_cons_of_mem _ List.mem_cons_self

theorem mentions_inline {condition : Located Text} (h : inlineHead.condition = some condition) :
    (inline inlineHead body).Mentions condition.value := by
  intro schema fields
  refine List.mem_append_left _ (List.mem_cons_of_mem _ (List.mem_append_left _ ?_))
  rw [h]
  exact List.mem_cons_of_mem _ List.mem_cons_self

/-- What is written of a selection is written of the braces around it. -/
theorem mem_setPieces (h : ∃ x ∈ body, x.Mentions n) (schema : Schema) (fields : Parser.Fields) :
    .name n ∈ SelectionSet.pieces schema fields body := by
  obtain ⟨x, hx, hn⟩ := h
  refine List.mem_cons_of_mem _ (List.mem_append_left _ ?_)
  rw [Parser.setPieces_eq]
  exact List.mem_flatMap.mpr ⟨x, hx, hn schema fields⟩

theorem mentions_below (h : ∃ x ∈ body, x.Mentions n) : (field head (some body)).Mentions n :=
  fun schema _ => List.mem_append_right _ (mem_setPieces h schema _)

theorem mentions_inside (h : ∃ x ∈ body, x.Mentions n) : (inline inlineHead body).Mentions n :=
  fun schema _ => List.mem_append_right _ (mem_setPieces h schema _)

end Selection

namespace Visit

/-- What is visited in a selection is written where the selection is, and on a type of the
schema. -/
structure Lies (s : Schema) (v : Visit) (x : Selection) : Prop where
  mentions : ∀ n, v.selection.Mentions n → x.Mentions n
  parent : ∀ t, v.parent = some t → ∃ name, s.type? name = some t

variable {s : Schema} {parent : Option TypeDef}

theorem Lies.refl {x : Selection} (hparent : ∀ t, parent = some t → ∃ name, s.type? name = some t) :
    Lies s ⟨x, parent⟩ x := ⟨fun _ h => h, hparent⟩

theorem typeBelow_known (field : Text) (t : TypeDef) (h : typeBelow s parent field = some t) :
    ∃ name, s.type? name = some t := by
  obtain ⟨f, -, hf⟩ := Option.bind_eq_some_iff.mp h
  exact ⟨_, hf⟩

theorem typeInside_known (hparent : ∀ t, parent = some t → ∃ name, s.type? name = some t)
    (condition : Option (Located Text)) (t : TypeDef)
    (h : typeInside s parent condition = some t) : ∃ name, s.type? name = some t := by
  cases condition with
  | none => exact hparent t h
  | some condition => exact ⟨_, h⟩

mutual

theorem lies_ofSelection : ∀ (x : Selection) (parent : Option TypeDef),
    (∀ t, parent = some t → ∃ name, s.type? name = some t) →
    ∀ v ∈ ofSelection s parent x, v.Lies s x
  | .field head none, parent, hparent => List.forall_mem_singleton.mpr (.refl hparent)
  | .field head (some body), parent, hparent => by
    refine List.forall_mem_cons.mpr ⟨.refl hparent, fun v hv => ?_⟩
    obtain ⟨x, hx, hlies⟩ := lies_ofSelections body _ (typeBelow_known head.name.value) v hv
    exact ⟨fun n hn => Selection.mentions_below ⟨x, hx, hlies.mentions n hn⟩, hlies.parent⟩
  | .spread sp, parent, hparent => List.forall_mem_singleton.mpr (.refl hparent)
  | .inline head body, parent, hparent => by
    refine List.forall_mem_cons.mpr ⟨.refl hparent, fun v hv => ?_⟩
    have hinside := typeInside_known hparent head.condition
    obtain ⟨x, hx, hlies⟩ := lies_ofSelections body _ hinside v hv
    exact ⟨fun n hn => Selection.mentions_inside ⟨x, hx, hlies.mentions n hn⟩, hlies.parent⟩

theorem lies_ofSelections : ∀ (xs : List Selection) (parent : Option TypeDef),
    (∀ t, parent = some t → ∃ name, s.type? name = some t) →
    ∀ v ∈ ofSelections s parent xs, ∃ x ∈ xs, v.Lies s x
  | [], _, _ => List.forall_mem_nil _
  | x :: rest, parent, hparent => by
    intro v hv
    rcases List.mem_append.mp hv with hv | hv
    · exact ⟨x, List.mem_cons_self, lies_ofSelection x parent hparent v hv⟩
    · obtain ⟨y, hy, hlies⟩ := lies_ofSelections rest parent hparent v hv
      exact ⟨y, List.mem_cons_of_mem x hy, hlies⟩

end

end Visit

namespace Definition

variable {n : Text} {op : Operation} {f : Fragment}

theorem mentions_of_operation (h : ∃ x ∈ op.selections, x.Mentions n) :
    (operation op).Mentions n := by
  intro schema form hform
  rcases List.mem_cons.mp hform with rfl | hform
  · refine List.mem_cons_of_mem _ (List.mem_append_right _ (List.mem_append_right _ ?_))
    exact List.mem_append_right _ (Selection.mem_setPieces h schema _)
  · split_ifs at hform
    · rw [List.mem_singleton.mp hform]
      exact Selection.mem_setPieces h schema _
    · cases hform

theorem mentions_of_fragment (h : ∃ x ∈ f.selections, x.Mentions n) :
    (fragment f).Mentions n := by
  intro schema form hform
  rw [List.mem_singleton.mp hform]
  iterate 4 apply List.mem_cons_of_mem
  exact List.mem_append_right _ (Selection.mem_setPieces h schema _)

theorem mentions_fragmentName (f : Fragment) : (fragment f).Mentions f.name.value := by
  intro schema form hform
  rw [List.mem_singleton.mp hform]
  exact List.mem_cons_of_mem _ List.mem_cons_self

theorem mentions_condition (f : Fragment) : (fragment f).Mentions f.condition.value := by
  intro schema form hform
  rw [List.mem_singleton.mp hform]
  iterate 3 apply List.mem_cons_of_mem
  exact List.mem_cons_self

theorem name_mem_tokens (t : TypeRef) : .name t.innermostName ∈ t.tokens := by
  induction t with
  | named name nonNull => exact List.mem_cons_self
  | list element size nonNull ih => exact List.mem_cons_of_mem _ (List.mem_append_left _ ih)

/-- An operation that declares variables cannot do without its keyword. -/
theorem mentions_variableType {d : VariableDef} (hd : d ∈ op.variableDefs) :
    (operation op).Mentions d.type.value.innermostName := by
  intro schema form hform
  obtain ⟨defs, hdefs, hd⟩ : ∃ defs, op.declaredVars = some defs ∧ d ∈ defs.value := by
    cases hvars : op.declaredVars with
    | none => simp [Operation.variableDefs, hvars] at hd
    | some defs => exact ⟨defs, rfl, by simpa [Operation.variableDefs, hvars] using hd⟩
  have hbare : op.isBare = false := by simp [Operation.isBare, hdefs]
  rw [forms, Operation.forms, hbare] at hform
  rw [List.mem_singleton.mp hform]
  refine List.mem_cons_of_mem _ (List.mem_append_right _ (List.mem_append_left _ ?_))
  rw [hdefs]
  refine List.mem_cons_of_mem _ (List.mem_append_left _ (List.mem_flatMap.mpr ⟨d, hd, ?_⟩))
  iterate 3 apply List.mem_cons_of_mem
  exact List.mem_append_left _ (List.mem_map_of_mem (name_mem_tokens _))

/-- What is visited in a definition is written in it, on a type of the schema. -/
theorem lies_of_mem {s : Schema} {d : Definition} {v : Visit} (hv : v ∈ Visit.ofDefinition s d) :
    (∀ n, v.selection.Mentions n → d.Mentions n) ∧
      ∀ t, v.parent = some t → ∃ name, s.type? name = some t := by
  cases d with
  | operation op =>
    have hroot (t : TypeDef) (h : s.root? op.type = some t) : ∃ name, s.type? name = some t := by
      obtain ⟨name, -, hname⟩ := Option.bind_eq_some_iff.mp h
      exact ⟨name, hname⟩
    obtain ⟨x, hx, hlies⟩ := Visit.lies_ofSelections op.selections _ hroot v hv
    exact ⟨fun n hn => mentions_of_operation ⟨x, hx, hlies.mentions n hn⟩, hlies.parent⟩
  | fragment f =>
    obtain ⟨x, hx, hlies⟩ := Visit.lies_ofSelections f.selections _ (fun t h => ⟨_, h⟩) v hv
    exact ⟨fun n hn => mentions_of_fragment ⟨x, hx, hlies.mentions n hn⟩, hlies.parent⟩

end Definition

namespace Document

variable {schema : Schema} {doc : Document} {t n : Text}

theorem Mentions.mem_of_renders {pieces : List Piece} (hn : doc.Mentions n)
    (h : doc.Renders schema pieces) : .name n ∈ pieces := by
  obtain ⟨d, hd, hn⟩ := hn
  obtain ⟨parts, rfl, hparts⟩ := h
  obtain ⟨part, hpart, hform⟩ : ∃ part ∈ parts, part ∈ d.forms schema := by
    induction hparts with
    | nil => cases hd
    | cons hform _ ih =>
      rcases List.mem_cons.mp hd with rfl | hd
      · exact ⟨_, List.mem_cons_self, hform⟩
      · obtain ⟨part, hpart, hform⟩ := ih hd
        exact ⟨part, List.mem_cons_of_mem _ hpart, hform⟩
  exact List.mem_flatten.mpr ⟨part, hpart, hn schema part hform⟩

/-- A name of a document that was read from a text was a token of the text. -/
theorem Mentions.mem_run (hn : doc.Mentions n) (hdoc : ofText schema t = .ok doc) :
    ∃ a ∈ (Lexer.run (Source.ofText t)).tokens, a.value = .name n := by
  obtain ⟨tokens, s', htokens, hparse⟩ := ofText_eq_ok_iff.mp hdoc
  obtain ⟨-, hitems⟩ := Parser.definitionsUpTo_sound _ (Tokens.ofText_not_endOfFile htokens)
    (by rw [Parser.length_values]; exact Nat.lt_succ_self _) hparse
  obtain ⟨pieces, hrenders, hwrites⟩ := (Parser.items_isDefinition_iff.mp hitems).2
  have hrun : tokens.pending = (Lexer.run (Source.ofText t)).tokens := by
    unfold Tokens.ofText Tokens.ofSource at htokens
    dsimp only at htokens
    split at htokens
    · cases htokens
      rfl
    · cases htokens
  obtain ⟨a, ha, hvalue⟩ := List.mem_map.mp (hwrites.mem_of_name (hn.mem_of_renders hrenders))
  exact ⟨a, hrun ▸ ha, hvalue⟩

theorem Mentions.isWellFormed (hn : doc.Mentions n) (hdoc : ofText schema t = .ok doc) :
    n.IsWellFormed := by
  obtain ⟨a, ha, hvalue⟩ := hn.mem_run hdoc
  have hshown := Lexer.isWellFormed_of_mem_run ha
  rwa [hvalue] at hshown

end Document

namespace Rules

variable {s : Schema} {doc : Document} {rule : Rule} {reported : List RuleError}

theorem isWellFormed_unknown (what : String) {name : Text} (hname : name.IsWellFormed)
    (location : Position) : (unknown (lit what) name location).message.IsWellFormed := by
  have hbefore : (lit "Unknown " ++ lit what ++ lit " \"").IsWellFormed :=
    ((Text.IsWellFormed.lit _).append (.lit _)).append (.lit _)
  exact (hbefore.append hname).append (.lit _)

theorem isWellFormed_of_mem_unknownType {name : Text} (hname : name.IsWellFormed)
    {location : Position} {e : RuleError} (he : e ∈ unknownType s name location) :
    e.message.IsWellFormed := by
  unfold unknownType at he
  split_ifs at he
  · cases he
  · rw [List.mem_singleton.mp he]
    exact isWellFormed_unknown "type" hname location

/-- A visit of a document: what is selected is written in it, on a type of the schema. -/
theorem lies_of_mem_document {v : Visit} (hv : v ∈ Visit.ofDocument s doc) :
    (∀ n, v.selection.Mentions n → doc.Mentions n) ∧
      ∀ t, v.parent = some t → ∃ name, s.type? name = some t := by
  obtain ⟨d, hd, hv⟩ := List.mem_flatMap.mp hv
  obtain ⟨hmentions, hparent⟩ := Definition.lies_of_mem hv
  exact ⟨fun n hn => ⟨d, hd, hmentions n hn⟩, hparent⟩

section Builtin

variable (hnames : ∀ n, doc.Mentions n → n.IsWellFormed)
include hnames

theorem isWellFormed_knownFragmentNames :
    ∀ e ∈ knownFragmentNames.check s doc reported, e.message.IsWellFormed := by
  intro e he
  obtain ⟨⟨selection, parent⟩, hv, he⟩ := List.mem_filterMap.mp he
  obtain ⟨hmentions, -⟩ := lies_of_mem_document hv
  cases selection with
  | field head body => cases he
  | inline head body => cases he
  | spread sp =>
    dsimp only at he
    split_ifs at he
    cases he
    have hname := hnames _ (hmentions _ (Selection.mentions_spread sp))
    exact isWellFormed_unknown "fragment:" hname sp.name.span.start

theorem isWellFormed_knownTypeNames :
    ∀ e ∈ knownTypeNames.check s doc reported, e.message.IsWellFormed := by
  intro e he
  rcases List.mem_append.mp he with he | he
  · obtain ⟨d, hd, he⟩ := List.mem_flatMap.mp he
    cases d with
    | fragment f =>
      have hname := hnames _ ⟨_, hd, Definition.mentions_condition f⟩
      exact isWellFormed_of_mem_unknownType hname he
    | operation op =>
      obtain ⟨declared, hdeclared, he⟩ := List.mem_flatMap.mp he
      have hname := hnames _ ⟨_, hd, Definition.mentions_variableType hdeclared⟩
      exact isWellFormed_of_mem_unknownType hname he
  · obtain ⟨⟨selection, parent⟩, hv, he⟩ := List.mem_flatMap.mp he
    obtain ⟨hmentions, -⟩ := lies_of_mem_document hv
    cases selection with
    | field head body => cases he
    | spread sp => cases he
    | inline head body =>
      obtain ⟨condition, directives, span⟩ := head
      cases condition with
      | none => cases he
      | some condition =>
        have hname := hnames _ (hmentions _ (Selection.mentions_inline rfl))
        exact isWellFormed_of_mem_unknownType hname he

theorem isWellFormed_fieldsOnCorrectType
    (htypes : ∀ name t, s.type? name = some t → t.name.IsWellFormed) :
    ∀ e ∈ fieldsOnCorrectType.check s doc reported, e.message.IsWellFormed := by
  intro e he
  obtain ⟨⟨selection, parent⟩, hv, he⟩ := List.mem_filterMap.mp he
  obtain ⟨hmentions, hparent⟩ := lies_of_mem_document hv
  cases selection with
  | spread sp => cases he
  | inline head body => cases he
  | field head body =>
    cases parent with
    | none => cases he
    | some parent =>
      dsimp only at he
      split_ifs at he
      cases he
      obtain ⟨name, hparent⟩ := hparent parent rfl
      have hname := hnames _ (hmentions _ (Selection.mentions_field head body))
      have hfield := hname.between "Unknown field \"" "\" on type \""
      exact (hfield.append (htypes name parent hparent)).append (.lit _)

theorem isWellFormed_noFragmentCycles :
    ∀ e ∈ noFragmentCycles.check s doc reported, e.message.IsWellFormed := by
  intro e he
  obtain ⟨name, sp, hsp, -, rfl⟩ := Cycles.reports_search doc.fragments e he
  obtain ⟨f, hf, rfl, -⟩ := Fragment.mem_spreadsFrom_iff.mp hsp
  obtain ⟨d, hd, hfragment⟩ := List.mem_filterMap.mp hf
  cases d with
  | operation op => cases hfragment
  | fragment f' =>
    cases hfragment
    exact (hnames _ ⟨_, hd, Definition.mentions_fragmentName f⟩).between _ _

end Builtin

end Rules

namespace Validator

variable {s : Schema} {doc : Document} {v : Validator}

/-- What is reported, some rule has found. -/
theorem exists_of_mem_validate {e : RuleError} (he : e ∈ v.validate s doc) :
    ∃ rule ∈ v, ∃ reported, e ∈ rule.check s doc reported := by
  have hreports : ∀ e ∈ v.reports s doc, ∃ rule ∈ v, ∃ reported, e ∈ rule.check s doc reported := by
    refine List.foldlRecOn (motive := fun found : List RuleError => ∀ e ∈ found, ∃ rule ∈ v,
      ∃ reported, e ∈ rule.check s doc reported) v _ (List.forall_mem_nil _) ?_
    intro found hfound rule hrule
    exact List.forall_mem_append.mpr ⟨hfound, fun e he => ⟨rule, hrule, found, he⟩⟩
  exact hreports e (List.mem_mergeSort.mp he)

/-- What the rules that apply unless others are chosen report is told in well-formed text. -/
theorem isWellFormed_of_mem_validate {t : Text} (hv : v ⊆ Rules.builtin)
    (hdoc : Document.ofText s t = .ok doc)
    (htypes : ∀ name t, s.type? name = some t → t.name.IsWellFormed) :
    ∀ e ∈ v.validate s doc, e.message.IsWellFormed := by
  intro e he
  have hnames (n : Text) (hn : doc.Mentions n) : n.IsWellFormed := hn.isWellFormed hdoc
  obtain ⟨rule, hrule, reported, he⟩ := exists_of_mem_validate he
  have hbuiltin := hv hrule
  simp only [Rules.builtin, List.mem_cons, List.not_mem_nil, or_false] at hbuiltin
  rcases hbuiltin with rfl | rfl | rfl | rfl
  · exact Rules.isWellFormed_knownFragmentNames hnames e he
  · exact Rules.isWellFormed_knownTypeNames hnames e he
  · exact Rules.isWellFormed_fieldsOnCorrectType hnames htypes e he
  · exact Rules.isWellFormed_noFragmentCycles hnames e he

end Validator

end GraphQL
