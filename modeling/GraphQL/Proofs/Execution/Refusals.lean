import GraphQL.Json.Response
import GraphQL.Proofs.Document.Blames
import GraphQL.Proofs.Document.Failures
import GraphQL.Proofs.Execution.Requests
import GraphQL.Proofs.Validation.Messages

/-! What a request is refused with. However broken its source is, the error of the request is
well-formed text, so that it can be sent as JSON. -/

namespace GraphQL

namespace Json

mutual

/-- The strings in a JSON tree, the keys of its objects among them. -/
def strings : Json → List Text
  | .null => []
  | .bool _ => []
  | .int _ => []
  | .float _ => []
  | .string text => [text]
  | .array items => stringsOfItems items
  | .object fields => stringsOfFields fields

def stringsOfItems : List Json → List Text
  | [] => []
  | j :: rest => j.strings ++ stringsOfItems rest

def stringsOfFields : List (Text × Json) → List Text
  | [] => []
  | (key, j) :: rest => key :: (j.strings ++ stringsOfFields rest)

end

/-- A JSON tree that can be written, for all its strings are well-formed. -/
def IsLegible (j : Json) : Prop := ∀ t ∈ j.strings, t.IsWellFormed

theorem isLegible_string {t : Text} (h : t.IsWellFormed) : (string t).IsLegible :=
  List.forall_mem_singleton.mpr h

theorem isLegible_array {items : List Json} (h : ∀ j ∈ items, j.IsLegible) :
    (array items).IsLegible := by
  unfold IsLegible strings
  induction items with
  | nil => exact List.forall_mem_nil _
  | cons j items ih =>
    obtain ⟨hj, hitems⟩ := List.forall_mem_cons.mp h
    exact List.forall_mem_append.mpr ⟨hj, ih hitems⟩

theorem isLegible_record {fields : List (String × Json)} (h : ∀ f ∈ fields, f.2.IsLegible) :
    (record fields).IsLegible := by
  unfold IsLegible record strings
  induction fields with
  | nil => exact List.forall_mem_nil _
  | cons f fields ih =>
    obtain ⟨hf, hfields⟩ := List.forall_mem_cons.mp h
    have hrest := List.forall_mem_append.mpr ⟨hf, ih hfields⟩
    exact List.forall_mem_cons.mpr ⟨.lit f.1, hrest⟩

end Json

theorem Position.isLegible_toLocationJson (p : Position) : p.toLocationJson.IsLegible := by
  refine Json.isLegible_record ?_
  rw [List.forall_mem_cons, List.forall_mem_singleton]
  exact ⟨List.forall_mem_nil _, List.forall_mem_nil _⟩

namespace RequestError

/-- An error that can be told, as a message and as JSON. -/
structure IsLegible (e : RequestError) : Prop where
  message : e.message.IsWellFormed
  toJson : e.toJson.IsLegible

theorem isLegible_report {message : Text} {places : List Json} (h : message.IsWellFormed)
    (hplaces : ∀ place ∈ places, place.IsLegible) :
    (Json.record [("message", .string message), ("locations", .array places)]).IsLegible := by
  refine Json.isLegible_record ?_
  rw [List.forall_mem_cons, List.forall_mem_singleton]
  exact ⟨Json.isLegible_string h, Json.isLegible_array hplaces⟩

theorem isLegible_parse {error : Located ParseError} (h : error.value.message.IsWellFormed) :
    (parse error).IsLegible where
  message := h
  toJson := Json.isLegible_array (List.forall_mem_singleton.mpr
    (isLegible_report h (List.forall_mem_singleton.mpr error.span.start.isLegible_toLocationJson)))

theorem isLegible_validation {errors : List RuleError}
    (h : ∀ e ∈ errors, e.message.IsWellFormed) : (validation errors).IsLegible where
  message := .chain (.lit _) (List.forall_mem_map.mpr h)
  toJson := by
    refine Json.isLegible_array (List.forall_mem_map.mpr fun e he => ?_)
    exact isLegible_report (h e he) (List.forall_mem_map.mpr fun p _ => p.isLegible_toLocationJson)

/-- Errors that have neither a place nor anything of the source in them. -/
theorem isLegible_plain {e : RequestError} {text : String} (hmessage : e.message = lit text)
    (hjson : e.toJson = .array [.record [("message", .string (lit text))]]) : e.IsLegible where
  message := hmessage ▸ .lit text
  toJson := by
    rw [hjson]
    refine Json.isLegible_array (List.forall_mem_singleton.mpr (Json.isLegible_record ?_))
    exact List.forall_mem_singleton.mpr (Json.isLegible_string (.lit text))

theorem isLegible_of_selectOperation {doc : Document} {name : Option Text} {e : RequestError}
    (h : doc.selectOperation name = .error e) : e.IsLegible := by
  cases name with
  | none =>
    simp only [Document.selectOperation, Document.onlyOperation] at h
    split at h
    · cases h
      exact isLegible_plain rfl rfl
    · cases h
    · cases h
      exact isLegible_plain rfl rfl
  | some name =>
    simp only [Document.selectOperation, Document.operationNamed] at h
    split at h
    · cases h
    · cases h
      exact isLegible_plain rfl rfl

end RequestError

/-- A text that does not parse is refused in well-formed text: for a character or an escape, for
its end, or for one of its tokens. -/
theorem Document.isWellFormed_message_of_ofText {schema : Schema} {t : Text}
    {e : Located ParseError}
    (hscalars : ∀ name d, schema.type? name = some (.scalar d) → d ∈ Scalars.builtin)
    (h : ofText schema t = .error (.refused e)) : e.value.message.IsWellFormed := by
  have htoken {a : Located Token} (ha : a ∈ (Lexer.run (Source.ofText t)).tokens) :
      (ParseError.ofToken a.value).message.IsWellFormed :=
    (Lexer.isWellFormed_of_mem_run ha).between _ _
  cases hend : (Lexer.run (Source.ofText t)).ending with
  | error failure =>
    rw [ofText_of_failure hend] at h
    cases h
    exact (Lexer.isLegible_of_run hend).message
  | ok stop =>
    rw [ofText_of_ending hend] at h
    have hblamed : Parser.Blamed schema ⟨(Lexer.run (Source.ofText t)).tokens, stop⟩
        (Parser.document schema ⟨(Lexer.run (Source.ofText t)).tokens, stop⟩) :=
      Parser.document_blames _
    generalize Parser.document schema ⟨(Lexer.run (Source.ofText t)).tokens, stop⟩ = r
      at h hblamed
    cases hblamed with
    | ok => cases h
    | ended =>
      cases h
      exact .lit _
    | unexpected ha =>
      cases h
      exact htoken ha
    | @literal a l error _ ha hl herror =>
      cases h
      rcases Schema.errs_inferScalar hscalars (Lexer.denotes_of_mem_run ha l hl) error herror with
        rfl | rfl
      · exact hl ▸ htoken ha
      · cases l <;> exact .lit _
    | endless => cases h

namespace Handling

variable {σ α β : Type}

/-- Whatever error of the request a handling ends in satisfies a predicate. -/
def Refuses (P : RequestError → Prop) (x : Handling σ α) : Prop :=
  ∀ session e, (x.run.run.run session).1 = .ok (.error e) → P e

namespace Refuses

variable {P : RequestError → Prop}

theorem pure (a : α) : Refuses P (pure a : Handling σ α) := by
  intro session e h
  cases h

theorem throw {e : RequestError} (h : P e) : Refuses P (throw e : Handling σ α) := by
  intro session e' he
  cases he
  exact h

theorem lift (x : Engine σ α) : Refuses P (ExceptT.lift x : Handling σ α) := by
  intro session e h
  rw [fst_run_lift] at h
  cases hx : (x.run.run session).1 <;> simp [hx, Except.map] at h

theorem ofExcept {x : Except RequestError α} (h : Errs P x) :
    Refuses P (Handling.ofExcept x : Handling σ α) := by
  intro session e he
  exact h e (Except.ok.inj he)

/-- What follows is refused only if it is come to. -/
theorem bind {x : Handling σ α} {f : α → Handling σ β} (hx : Refuses P x)
    (hf : ∀ a s t, x.run.run.run s = (.ok (.ok a), t) → Refuses P (f a)) :
    Refuses P (x >>= f) := by
  intro session e h
  rw [run_bind] at h
  have hx := hx session
  rcases hr : x.run.run.run session with ⟨v | e' | a, t⟩
  · rw [hr] at h
    cases h
  · rw [hr] at h hx
    cases h
    exact hx e rfl
  · rw [hr] at h
    exact hf a session t hr t e h

theorem andThen {x : Handling σ α} {f : α → Handling σ β} (hx : Refuses P x)
    (hf : ∀ a, Refuses P (f a)) : Refuses P (x >>= f) := hx.bind fun a _ _ _ => hf a

end Refuses

end Handling

namespace Service

open Handling (Refuses)

variable {σ : Type} {service : Service σ} {options : RequestOptions} {source : Text}

section

variable
  (hscalars : ∀ name d, service.schema.type? name = some (.scalar d) → d ∈ Scalars.builtin)
  (hnames : ∀ name t, service.schema.type? name = some t → t.name.IsWellFormed)
  (hrules : ∀ v, options.validator = some v → v ⊆ Rules.builtin)

theorem ofText_of_parse {doc : Document} {s t : Session σ}
    (h : (service.parse source).run.run.run s = (.ok (.ok doc), t)) :
    Document.ofText service.schema source = .ok doc := by
  unfold parse at h
  cases hdoc : Document.ofText service.schema source with
  | ok found =>
    rw [hdoc] at h
    cases h
    rfl
  | error failure =>
    rw [hdoc] at h
    cases failure with
    | refused e =>
      rw [Handling.run_bind] at h
      cases h
    | endless => cases h

include hscalars in
theorem refuses_parse : Refuses RequestError.IsLegible (service.parse source) := by
  unfold parse
  cases hdoc : Document.ofText service.schema source with
  | ok doc => exact .pure doc
  | error failure =>
    cases failure with
    | refused e =>
      have he := RequestError.isLegible_parse
        (Document.isWellFormed_message_of_ofText hscalars hdoc)
      exact .andThen (.lift _) fun _ => .throw he
    | endless => exact .lift _

include hnames hrules in
theorem refuses_prepare {doc : Document} (hdoc : Document.ofText service.schema source = .ok doc) :
    Refuses RequestError.IsLegible (service.prepare doc options) := by
  have hselect : Refuses RequestError.IsLegible
      (Handling.ofExcept (doc.selectOperation options.operationName) : Handling σ Operation) :=
    .ofExcept fun e he => RequestError.isLegible_of_selectOperation he
  unfold prepare
  cases hvalidator : options.validator with
  | none => exact hselect
  | some v =>
    have herrors := RequestError.isLegible_validation
      (Validator.isWellFormed_of_mem_validate (hrules v hvalidator) hdoc hnames)
    dsimp only
    refine .andThen (.lift _) fun _ => ?_
    split_ifs
    · exact hselect
    · exact .andThen (.throw herrors) fun _ => hselect

end

/-- Whatever bytes a request is given as its source, what it is refused with is well-formed text:
its message and every string of it as JSON. The scalars of the schema are among those that every
schema starts with, and the names of its types are well-formed; the rules are among those that
apply unless others are chosen. -/
theorem refusals_areWellFormed
    (hscalars : ∀ name d, service.schema.type? name = some (.scalar d) → d ∈ Scalars.builtin)
    (hnames : ∀ name t, service.schema.type? name = some t → t.name.IsWellFormed)
    (hrules : ∀ v, options.validator = some v → v ⊆ Rules.builtin) (source : Text)
    (session : Session σ) (e : RequestError)
    (h : ((service.execute source options).run.run.run session).1 = .ok (.error e) ∨
      ((service.subscribe source options).run.run.run session).1 = .ok (.error e)) :
    e.message.IsWellFormed ∧ ∀ t ∈ e.toJson.strings, t.IsWellFormed := by
  have hprepare (doc : Document) (s t : Session σ)
      (hdoc : (service.parse source).run.run.run s = (.ok (.ok doc), t)) :
      Refuses RequestError.IsLegible (service.prepare doc options) :=
    refuses_prepare hnames hrules (ofText_of_parse hdoc)
  have hexecute : Refuses RequestError.IsLegible (service.execute source options) := by
    refine (refuses_parse hscalars).bind fun doc s t hdoc => ?_
    refine (hprepare doc s t hdoc).andThen fun op => ?_
    split_ifs
    · exact .andThen (.throw (RequestError.isLegible_plain rfl rfl)) fun _ => .lift _
    · exact .lift _
  have hsubscribe : Refuses RequestError.IsLegible (service.subscribe source options) := by
    refine (refuses_parse hscalars).bind fun doc s t hdoc => ?_
    refine (hprepare doc s t hdoc).andThen fun op => ?_
    split_ifs
    · exact .lift _
    · exact .andThen (.throw (RequestError.isLegible_plain rfl rfl)) fun _ => .lift _
  have hlegible : e.IsLegible := h.elim (hexecute session e) (hsubscribe session e)
  exact ⟨hlegible.message, hlegible.toJson⟩

end Service

namespace Torn

/-- A type whose name takes more bytes than it has characters. -/
def size : ObjectDef :=
  ⟨lit "Größe", none, [⟨lit "a", none, none, .named (lit "Int") false, .current⟩], []⟩

def schema : Schema :=
  ⟨(lit "Größe", .object size) :: Overflow.schema.types, lit "Größe", none, none, [], none⟩

def service : Service Unit := ⟨schema, none, none, none⟩

def options : RequestOptions := ⟨none, ⟨[], none, false⟩, some Rules.builtin⟩

/-- A string that ends in the first byte of a character. -/
def source : Text := lit "\x7b a(n: \"Gr" ++ [0xC3] ++ lit "\") \x7d"

/-- A field that the type does not have. -/
def unknown : Text := lit "\x7b b \x7d"

theorem mem_types {name : Text} {t : TypeDef} (h : schema.type? name = some t) :
    t = .object size ∨ t = .scalar Scalars.int ∨ t = .scalar Scalars.float ∨
      t = .scalar Scalars.string := by
  have hmem := Keyed.mem_of_get? h
  simp only [schema, Overflow.schema, List.mem_cons, Prod.mk.injEq, List.not_mem_nil,
    or_false] at hmem
  rcases hmem with ⟨-, rfl⟩ | ⟨-, rfl⟩ | ⟨-, rfl⟩ | ⟨-, rfl⟩ <;> simp

theorem mem_builtin_of_type? (name : Text) (d : ScalarDef)
    (h : schema.type? name = some (.scalar d)) : d ∈ Scalars.builtin := by
  rcases mem_types h with h | h | h | h <;> cases h <;> simp [Scalars.builtin]

theorem isWellFormed_of_type? (name : Text) (t : TypeDef) (h : schema.type? name = some t) :
    t.name.IsWellFormed := by
  rcases mem_types h with rfl | rfl | rfl | rfl
  all_goals exact .lit _

/-- The torn character shows as a replacement, the name of the type as it is. -/
theorem refusal_isWellFormed :
    (∀ name d, schema.type? name = some (.scalar d) → d ∈ Scalars.builtin) ∧
    (∀ name t, schema.type? name = some t → t.name.IsWellFormed) ∧
    (∀ v, options.validator = some v → v ⊆ Rules.builtin) ∧
    (∃ e, ((service.execute source options).run.run.run ⟨[], ()⟩).1 = .ok (.error e) ∧
      e.message = lit "Unknown character \"\uFFFD\" in string literal" ∧
      e.message.IsWellFormed ∧ ∀ t ∈ e.toJson.strings, t.IsWellFormed) ∧
    ∃ e, ((service.execute unknown options).run.run.run ⟨[], ()⟩).1 = .ok (.error e) ∧
      e.message = lit "Unknown field \"b\" on type \"Größe\"" ∧
      e.message.IsWellFormed ∧ ∀ t ∈ e.toJson.strings, t.IsWellFormed := by
  have hrules (v : Validator) (hv : options.validator = some v) : v ⊆ Rules.builtin := by
    cases hv
    exact List.Subset.refl _
  have hlegible (source : Text) (e : RequestError)
      (h : ((service.execute source options).run.run.run ⟨[], ()⟩).1 = .ok (.error e)) :
      e.message.IsWellFormed ∧ ∀ t ∈ e.toJson.strings, t.IsWellFormed :=
    Service.refusals_areWellFormed mem_builtin_of_type? isWellFormed_of_type? hrules source
      ⟨[], ()⟩ e (.inl h)
  refine ⟨mem_builtin_of_type?, isWellFormed_of_type?, hrules, ?_, ?_⟩
  · have htorn : ((service.execute source options).run.run.run ⟨[], ()⟩).1 = .ok (.error
        (.parse ⟨.lexer (.unknownCharacterInString Utf8.malformed), .empty ⟨10, 0, 10⟩⟩)) := rfl
    exact ⟨_, htorn, rfl, hlegible _ _ htorn⟩
  · have hunknown : ((service.execute unknown options).run.run.run ⟨[], ()⟩).1 = .ok (.error
        (.validation [⟨lit "Unknown field \"b\" on type \"Größe\"", [⟨2, 0, 2⟩]⟩])) := by
      with_unfolding_all rfl
    exact ⟨_, hunknown, rfl, hlegible _ _ hunknown⟩

end Torn

end GraphQL
