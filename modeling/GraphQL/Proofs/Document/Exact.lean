import GraphQL.Proofs.Document.Definitions
import GraphQL.Proofs.Token.Reading

/-! Whole documents. The parser accepts a text only when its tokens spell a well-formed document with
something in it, and answers with that document. Where unions end it accepts all such texts. -/

namespace GraphQL

namespace Document

/-- Tokens that a document is written with. -/
def Spells (schema : Schema) (doc : Document) (ts : List Token) : Prop :=
  ∃ pieces, doc.Renders schema pieces ∧ Writes schema pieces ts

end Document

namespace Parser

variable {schema : Schema} {s s' : Tokens} {ts rest : List Token}

/-- Tokens of a definition in any of its forms. -/
def IsDefinition (schema : Schema) (d : Definition) (ts : List Token) : Prop :=
  d.isWellFormed schema = true ∧ ∃ form ∈ d.forms schema, Writes schema form ts

theorem isDefinition_fragment_iff {f : Fragment} :
    IsDefinition schema (.fragment f) ts ↔ IsFragment schema f ts := by
  simp [IsDefinition, IsFragment, Derives, Definition.isWellFormed, Definition.forms]

theorem isDefinition_starts : Starts (IsDefinition schema) (· ≠ .endOfFile) := by
  intro d ts h
  cases d with
  | operation op =>
    rcases isOperation_cases h with hop | ⟨selections, span, rfl, hset⟩
    · obtain ⟨us, vs, ws, rfl, -⟩ := isKeyworded_iff.mp hop
      exact ⟨_, _, rfl, nofun⟩
    · obtain ⟨us, rfl⟩ := isSelectionSet_opens hset
      exact ⟨_, _, rfl, nofun⟩
  | fragment f =>
    obtain ⟨us, vs, rfl, -⟩ := isFragment_iff.mp (isDefinition_fragment_iff.mp h)
    exact ⟨_, _, rfl, nofun⟩

theorem definition_sound : Sound (definition schema) (IsDefinition schema) := by
  intro s d s' h
  simp only [definition, bind_ok, peek_ok] at h
  obtain ⟨_, _, ⟨rfl, rfl⟩, h⟩ := h
  cases hfront : s.front.value with
  | name text =>
    simp only [hfront] at h
    split_ifs at h
    · obtain ⟨op, hop, rfl⟩ := map_ok.mp h
      exact operation_sound .query hop
    · obtain ⟨op, hop, rfl⟩ := map_ok.mp h
      exact operation_sound .mutation hop
    · obtain ⟨op, hop, rfl⟩ := map_ok.mp h
      exact operation_sound .subscription hop
    · obtain ⟨f, hf, rfl⟩ := map_ok.mp h
      obtain ⟨ts, hts, hfragment⟩ := fragmentDef_sound hf
      exact ⟨ts, hts, isDefinition_fragment_iff.mpr hfragment⟩
    · exact absurd h unexpected_not_ok
  | mark m =>
    cases m
    all_goals simp only [hfront] at h
    case curlyOpen =>
      obtain ⟨op, hop, rfl⟩ := map_ok.mp h
      exact shorthand_sound hop
    all_goals exact absurd h unexpected_not_ok
  | scalar l =>
    simp only [hfront] at h
    exact absurd h unexpected_not_ok
  | endOfFile =>
    simp only [hfront] at h
    exact absurd h unexpected_not_ok

/-- The keyword of an operation decides that an operation of its type is read. -/
theorem definition_of_keyword {type : OperationType} {d : Definition}
    (hs : s.values = .name type.toText :: rest)
    (h : (.operation <$> operation schema type) s = .ok d s') : definition schema s = .ok d s' := by
  refine bind_ok.mpr ⟨_, s, peek_ok.mpr ⟨rfl, rfl⟩, ?_⟩
  rw [front_value hs]
  cases type <;> exact h

theorem definition_complete (hunions : schema.UnionsEnd) :
    Complete (definition schema) Definition.unlocated (IsDefinition schema) anything := by
  rintro s d ts rest hs h -
  cases d with
  | operation op =>
    rcases isOperation_cases h with hkeyword | ⟨selections, span, rfl, hset⟩
    · obtain ⟨op', s', hop, hsame, hs'⟩ := operation_complete hunions hs hkeyword
      obtain ⟨us, vs, ws, rfl, -⟩ := isKeyworded_iff.mp hkeyword
      exact ⟨.operation op', s', definition_of_keyword hs (map_ok.mpr ⟨op', hop, rfl⟩),
        congrArg Definition.operation hsame, hs'⟩
    · obtain ⟨op', s', hop, hsame, hs'⟩ := shorthand_complete hunions span hs hset
      obtain ⟨us, rfl⟩ := isSelectionSet_opens hset
      refine ⟨.operation op', s', bind_ok.mpr ⟨_, s, peek_ok.mpr ⟨rfl, rfl⟩, ?_⟩,
        congrArg Definition.operation hsame, hs'⟩
      rw [front_value hs]
      exact map_ok.mpr ⟨op', hop, rfl⟩
  | fragment f =>
    have hfragment := isDefinition_fragment_iff.mp h
    obtain ⟨f', s', hf, hsame, hs'⟩ := fragmentDef_complete hunions hs hfragment trivial
    obtain ⟨us, vs, rfl, -⟩ := isFragment_iff.mp hfragment
    refine ⟨.fragment f', s', bind_ok.mpr ⟨_, s, peek_ok.mpr ⟨rfl, rfl⟩, ?_⟩,
      congrArg Definition.fragment hsame, hs'⟩
    rw [front_value hs]
    exact map_ok.mpr ⟨f', hf, rfl⟩

theorem front_of_nil (h : s.values = []) : s.front.value = .endOfFile := by
  rw [Tokens.front, List.map_eq_nil_iff.mp h]

/-- The end of the file comes next when there is no token left. -/
theorem front_endOfFile_iff (h : ∀ t ∈ s.values, t ≠ .endOfFile) :
    (s.front.value == .endOfFile) = true ↔ s.values = [] := by
  rw [beq_iff_eq]
  unfold Tokens.front Tokens.values at *
  cases hp : s.pending with
  | nil => simp
  | cons t more =>
    rw [hp] at h
    simpa using h t.value (by simp)

/-- Definitions are read up to the end of the file: each takes a token, so there is fuel enough. -/
theorem definitionsUpTo_sound (fuel : Nat) {doc : Document} (hs : ∀ t ∈ s.values, t ≠ .endOfFile)
    (hfuel : s.values.length < fuel) (h : definitionsUpTo schema fuel s = .ok doc s') :
    doc ≠ [] ∧ Items (IsDefinition schema) doc s.values := by
  induction fuel generalizing s doc with
  | zero => exact absurd hfuel (Nat.not_lt_zero _)
  | succ fuel ih =>
    simp only [definitionsUpTo, bind_ok] at h
    obtain ⟨d, s₁, hd, _, _, hpeek, h⟩ := h
    obtain ⟨rfl, rfl⟩ := peek_ok.mp hpeek
    obtain ⟨us, hus, hdefinition⟩ := definition_sound hd
    obtain ⟨t, us, rfl, -⟩ := isDefinition_starts hdefinition
    rw [hus] at hs hfuel ⊢
    have hs₁ : ∀ t ∈ s₁.values, t ≠ .endOfFile := fun t ht => hs t (List.mem_append_right _ ht)
    split_ifs at h with hend
    · obtain ⟨rfl, rfl⟩ := pure_ok.mp h
      rw [(front_endOfFile_iff hs₁).mp hend]
      exact ⟨List.cons_ne_nil _ _,
        items_cons_iff.mpr ⟨_, [], rfl, hdefinition, items_nil_iff.mpr rfl⟩⟩
    · obtain ⟨more, s₂, hmore, h⟩ := bind_ok.mp h
      obtain ⟨rfl, rfl⟩ := pure_ok.mp h
      obtain ⟨-, hitems⟩ := ih hs₁ (by simp at hfuel; omega) hmore
      exact ⟨List.cons_ne_nil _ _, items_cons_iff.mpr ⟨_, _, rfl, hdefinition, hitems⟩⟩

theorem definitionsUpTo_complete (hunions : schema.UnionsEnd) (fuel : Nat) {doc : Document}
    (hdoc : doc ≠ []) (h : Items (IsDefinition schema) doc s.values) (hfuel : s.values.length < fuel) :
    ∃ doc' s', definitionsUpTo schema fuel s = .ok doc' s' ∧ doc'.unlocated = doc.unlocated := by
  induction fuel generalizing s doc with
  | zero => exact absurd hfuel (Nat.not_lt_zero _)
  | succ fuel ih =>
    cases doc with
    | nil => exact absurd rfl hdoc
    | cons d more =>
      obtain ⟨us, vs, hs, hd, hmore⟩ := items_cons_iff.mp h
      obtain ⟨d', s₁, hd', hsame, hs₁⟩ := definition_complete hunions hs hd trivial
      simp only [definitionsUpTo, bind_ok]
      cases more with
      | nil =>
        obtain rfl := items_nil_iff.mp hmore
        refine ⟨[d'], s₁, ⟨d', s₁, hd', _, s₁, peek_ok.mpr ⟨rfl, rfl⟩, ?_⟩,
          congrArg (fun d => [d]) hsame⟩
        rw [front_of_nil hs₁]
        exact pure_ok.mpr ⟨rfl, rfl⟩
      | cons d₂ more =>
        obtain ⟨t, us, rfl, -⟩ := isDefinition_starts hd
        obtain ⟨doc', s', hdoc', hsames⟩ := ih (List.cons_ne_nil d₂ more) (hs₁ ▸ hmore)
          (by rw [hs] at hfuel; rw [hs₁]; simp at hfuel; omega)
        refine ⟨d' :: doc', s', ⟨d', s₁, hd', _, s₁, peek_ok.mpr ⟨rfl, rfl⟩, ?_⟩,
          congrArg₂ List.cons hsame hsames⟩
        obtain ⟨ws, xs, rfl, hd₂, -⟩ := items_cons_iff.mp hmore
        obtain ⟨u, ws, rfl, hu⟩ := isDefinition_starts hd₂
        rw [front_value hs₁, if_neg (fun h => hu (eq_of_beq h))]
        exact bind_ok.mpr ⟨doc', s', hdoc', pure_ok.mpr ⟨rfl, rfl⟩⟩

/-- Definitions one after another are a well-formed document as it is spelled. -/
theorem items_isDefinition_iff {doc : Document} : Items (IsDefinition schema) doc ts ↔
    doc.isWellFormed schema = true ∧ doc.Spells schema ts := by
  induction doc generalizing ts with
  | nil =>
    rw [items_nil_iff]
    refine ⟨fun h => ⟨rfl, [], ⟨[], rfl, .nil⟩, writes_nil.mpr h⟩, ?_⟩
    rintro ⟨-, _, ⟨parts, rfl, hparts⟩, hwrites⟩
    cases hparts
    exact writes_nil.mp hwrites
  | cons d doc ih =>
    simp only [items_cons_iff, ih]
    constructor
    · rintro ⟨us, vs, rfl, ⟨hd, form, hform, hus⟩, hdoc, _, ⟨parts, rfl, hparts⟩, hvs⟩
      exact ⟨Bool.and_eq_true_iff.mpr ⟨hd, hdoc⟩, form ++ parts.flatten,
        ⟨form :: parts, rfl, .cons hform hparts⟩, hus.append hvs⟩
    · rintro ⟨hwf, _, ⟨parts, rfl, hparts⟩, hwrites⟩
      obtain ⟨hd, hdoc⟩ := Bool.and_eq_true_iff.mp hwf
      cases hparts with
      | cons hform hparts =>
        obtain ⟨us, vs, rfl, hus, hvs⟩ := writes_append.mp hwrites
        exact ⟨us, vs, rfl, ⟨hd, _, hform, hus⟩, hdoc, _, ⟨_, rfl, hparts⟩, hvs⟩

end Parser

namespace Lexer

/-- The end of the file is not among the tokens that are read. -/
theorem run_not_endOfFile (s : Source) : ∀ a ∈ (run s).tokens, a.value ≠ .endOfFile := by
  induction s using source_induction with
  | failed s failure h => simp [run_eq, h]
  | ended s h => simp [run_eq, h]
  | token s a after h ih =>
    rw [run_eq, h]
    exact List.forall_mem_cons.mpr ⟨next?_not_endOfFile h, ih⟩

end Lexer

namespace Tokens

theorem ofText_not_endOfFile {t : Text} {tokens : Tokens} (h : ofText t = .ok tokens) :
    ∀ a ∈ tokens.values, a ≠ .endOfFile := by
  unfold ofText ofSource at h
  simp only at h
  split at h
  · cases h
    exact List.forall_mem_map.mpr (Lexer.run_not_endOfFile _)
  · cases h

end Tokens

namespace Document

theorem ofText_eq_ok_iff {schema : Schema} {t : Text} {doc : Document} : ofText schema t = .ok doc ↔
    ∃ tokens s', Tokens.ofText t = .ok tokens ∧ Parser.document schema tokens = .ok doc s' := by
  cases htokens : Tokens.ofText t with
  | error e =>
    have hrun : ofText schema t = .error (.refused e) := by
      rw [ofText, htokens]
      rfl
    simp [hrun]
  | ok tokens =>
    cases hdoc : Parser.document schema tokens with
    | ok found s' =>
      have hrun : ofText schema t = .ok found := by
        simp only [ofText, htokens, Except.mapError, bind, Except.bind, EStateM.run, hdoc]
      simp [hrun, hdoc]
    | error e s' =>
      have hrun : ofText schema t = .error e := by
        simp only [ofText, htokens, Except.mapError, bind, Except.bind, EStateM.run, hdoc]
      simp [hrun, hdoc]

/-- The parser is exact. What it answers with is a well-formed document with something in it, which
the tokens of the text spell; and where tokens spell such a document, it answers with it, up to
spans, as long as unions end. -/
theorem ofText_exact (schema : Schema) (t : Text) :
    (∀ doc : Document, ofText schema t = .ok doc → ∃ tokens, Tokens.ofText t = .ok tokens ∧
      doc ≠ [] ∧ doc.isWellFormed schema = true ∧ doc.Spells schema tokens.values) ∧
    (schema.UnionsEnd → ∀ (doc : Document) (tokens : Tokens), Tokens.ofText t = .ok tokens →
      doc ≠ [] → doc.isWellFormed schema = true → doc.Spells schema tokens.values →
      ∃ doc', ofText schema t = .ok doc' ∧ doc'.unlocated = doc.unlocated) := by
  constructor
  · intro doc h
    obtain ⟨tokens, s', htokens, hdoc⟩ := ofText_eq_ok_iff.mp h
    obtain ⟨hne, hitems⟩ := Parser.definitionsUpTo_sound _ (Tokens.ofText_not_endOfFile htokens)
      (by rw [Parser.length_values]; exact Nat.lt_succ_self _) hdoc
    exact ⟨tokens, htokens, hne, Parser.items_isDefinition_iff.mp hitems⟩
  · intro hunions doc tokens htokens hne hwf hspells
    have hitems := Parser.items_isDefinition_iff.mpr ⟨hwf, hspells⟩
    obtain ⟨doc', s', hdoc', hsame⟩ := Parser.definitionsUpTo_complete hunions
      (tokens.pending.length + 1) hne hitems
      (by rw [Parser.length_values]; exact Nat.lt_succ_self _)
    exact ⟨doc', ofText_eq_ok_iff.mpr ⟨tokens, s', htokens, hdoc'⟩, hsame⟩

end Document

namespace Circle

/-- A query with a fragment on the union that lists itself. -/
def document : Document :=
  [.operation ⟨.query, none, none, none, [.inline ⟨some (.unlocated (lit "Loop")), none,
    .unlocated⟩ [.field ⟨none, .unlocated (lit "a"), none, none, .unlocated⟩ none]], .unlocated⟩]

def tokens : List Token :=
  [.mark .curlyOpen, .mark .ellipsis, .name (lit "on"), .name (lit "Loop"), .mark .curlyOpen,
    .name (lit "a"), .mark .curlyClose, .mark .curlyClose]

theorem document_spells : document.Spells schema tokens :=
  ⟨tokens.map .token, ⟨[_], rfl, .cons (List.mem_cons_of_mem _ List.mem_cons_self) .nil⟩,
    writes_tokens.mpr rfl⟩

end Circle

namespace Switch

/-- A scalar that takes every literal for `true`. -/
def flag : ScalarDef := ⟨lit "Flag", none, none, fun _ => .ok (.boolean true)⟩

def query : ObjectDef :=
  ⟨lit "Query", none, [⟨lit "a", none, some [⟨lit "on", none, .named (lit "Flag") false, none⟩],
    .named (lit "Flag") false, .current⟩], []⟩

def schema : Schema :=
  ⟨[(lit "Flag", .scalar flag), (lit "Query", .object query)], lit "Query", none, none, [], none⟩

def source : Text := lit "\x7ba(on:1)\x7d"

def tokens : Tokens :=
  ⟨[⟨.mark .curlyOpen, ⟨⟨0, 0, 0⟩, ⟨1, 0, 1⟩⟩⟩, ⟨.name (lit "a"), ⟨⟨1, 0, 1⟩, ⟨2, 0, 2⟩⟩⟩,
    ⟨.mark .parenOpen, ⟨⟨2, 0, 2⟩, ⟨3, 0, 3⟩⟩⟩, ⟨.name (lit "on"), ⟨⟨3, 0, 3⟩, ⟨5, 0, 5⟩⟩⟩,
    ⟨.mark .colon, ⟨⟨5, 0, 5⟩, ⟨6, 0, 6⟩⟩⟩, ⟨.scalar (.int (lit "1")), ⟨⟨6, 0, 6⟩, ⟨7, 0, 7⟩⟩⟩,
    ⟨.mark .parenClose, ⟨⟨7, 0, 7⟩, ⟨8, 0, 8⟩⟩⟩, ⟨.mark .curlyClose, ⟨⟨8, 0, 8⟩, ⟨9, 0, 9⟩⟩⟩],
    ⟨9, 0, 9⟩⟩

/-- A query of a field whose argument is a truth value. -/
def document : Document :=
  [.operation ⟨.query, none, none, none, [.field ⟨none, .unlocated (lit "a"),
    some (.unlocated [(.unlocated (lit "on"), .unlocated (.scalar (.boolean true)))]), none,
    .unlocated⟩ none], .unlocated⟩]

theorem ofText_source : Tokens.ofText source = .ok tokens := rfl

/-- What the document renders as. -/
def pieces : List Piece :=
  [.mark .curlyOpen, .name (lit "a"), .mark .parenOpen, .name (lit "on"), .mark .colon,
    .scalar (some (.scalar flag)) (.boolean true), .mark .parenClose, .mark .curlyClose]

theorem document_spells : document.Spells schema tokens.values := by
  refine ⟨pieces, ⟨[pieces], rfl, .cons ?_ .nil⟩, ?_⟩
  · exact List.mem_cons_of_mem _ List.mem_cons_self
  · have hflag : Writes schema [.scalar (some (.scalar flag)) (.boolean true), .mark .parenClose,
        .mark .curlyClose] [.scalar (.int (lit "1")), .mark .parenClose, .mark .curlyClose] :=
      .cons (.literal rfl) (Writes.nil.mark .curlyClose |>.mark .parenClose)
    exact hflag.mark .colon |>.name _ |>.mark .parenOpen |>.name _ |>.mark .curlyOpen

theorem ofText_exact_document : schema.UnionsEnd ∧ Tokens.ofText source = .ok tokens ∧
    document ≠ [] ∧ document.isWellFormed schema = true ∧ document.Spells schema tokens.values ∧
    ∃ doc : Document, Document.ofText schema source = .ok doc ∧
      doc.unlocated = document.unlocated ∧
      doc ≠ [] ∧ doc.isWellFormed schema = true ∧ doc.Spells schema tokens.values := by
  have hunions : schema.UnionsEnd := by decide
  have hne : document ≠ [] := List.cons_ne_nil _ _
  obtain ⟨doc, hdoc, hsame⟩ := (Document.ofText_exact schema source).2 hunions document tokens
    ofText_source hne rfl document_spells
  obtain ⟨tokens', htokens, hexact⟩ := (Document.ofText_exact schema source).1 doc hdoc
  rw [ofText_source] at htokens
  cases htokens
  exact ⟨hunions, ofText_source, hne, rfl, document_spells, doc, hdoc, hsame, hexact⟩

/-- A query that declares a variable for a list. -/
def declaring (size : Option Nat) : Document :=
  [.operation ⟨.query, none, some (.unlocated [⟨.unlocated (lit "v"),
    .unlocated (.list (.named (lit "Flag") false) size false), none, none⟩]), none,
    [.field ⟨none, .unlocated (lit "a"), none, none, .unlocated⟩ none], .unlocated⟩]

def declaringSource : Text := lit "query($v:[Flag])\x7ba\x7d"

def declaringTokens : List Token :=
  [.name (lit "query"), .mark .parenOpen, .mark .dollar, .name (lit "v"), .mark .colon,
    .mark .bracketOpen, .name (lit "Flag"), .mark .bracketClose, .mark .parenClose,
    .mark .curlyOpen, .name (lit "a"), .mark .curlyClose]

theorem declaring_spells (size : Option Nat) : (declaring size).Spells schema declaringTokens :=
  ⟨declaringTokens.map .token, ⟨[_], rfl, .cons List.mem_cons_self .nil⟩, writes_tokens.mpr rfl⟩

/-- Four ways in which documents do not come back. Nothing at all is no document. A list that
expects so many items is written as one that does not. Where a scalar takes a number for a truth
value, the truth value is not what is written. And in a circle of unions there is no way back. -/
theorem ofText_inexact :
    (Document.isWellFormed schema [] = true ∧ Document.Spells schema [] [] ∧
      (∃ tokens, Tokens.ofText [] = .ok tokens ∧ tokens.values = []) ∧
      ∀ doc, Document.ofText schema [] ≠ .ok doc) ∧
    ((declaring none).isWellFormed schema = true ∧
      (∃ tokens, Tokens.ofText declaringSource = .ok tokens ∧ tokens.values = declaringTokens) ∧
      (declaring (some 2)).Spells schema declaringTokens ∧
      ∀ doc : Document, Document.ofText schema declaringSource = .ok doc →
        doc.unlocated ≠ (declaring (some 2)).unlocated) ∧
    (∃ doc : Document, Document.ofText schema source = .ok doc ∧
      doc.unlocated = document.unlocated ∧ Tokens.ofText source = .ok tokens ∧
      .scalar (.int (lit "1")) ∈ tokens.values ∧ .name (lit "true") ∉ tokens.values) ∧
    (Circle.document.isWellFormed Circle.schema = true ∧
      (∃ tokens, Tokens.ofText Circle.source = .ok tokens ∧ tokens.values = Circle.tokens) ∧
      Circle.document.Spells Circle.schema Circle.tokens ∧
      ∀ doc, Document.ofText Circle.schema Circle.source ≠ .ok doc) := by
  have hdeclaring : ∃ doc : Document, Document.ofText schema declaringSource = .ok doc ∧
      doc.unlocated = (declaring none).unlocated := ⟨_, rfl, rfl⟩
  refine ⟨⟨rfl, ⟨[], ⟨[], rfl, .nil⟩, .nil⟩, ⟨_, rfl, rfl⟩, nofun⟩,
    ⟨rfl, ⟨_, rfl, rfl⟩, declaring_spells _, fun doc h hsized => ?_⟩, ?_,
    ⟨rfl, ⟨_, rfl, rfl⟩, Circle.document_spells, nofun⟩⟩
  · obtain ⟨doc', hdoc', hsame⟩ := hdeclaring
    rw [hdoc'] at h
    cases h
    cases hsame.symm.trans hsized
  · exact ⟨_, rfl, rfl, rfl, by decide, by decide⟩

end Switch

end GraphQL
