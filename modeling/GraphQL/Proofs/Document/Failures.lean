import GraphQL.Proofs.Document.Blames
import GraphQL.Proofs.Parser.LeftToRight
import GraphQL.Proofs.Token.Decoding

/-! Why a text does not parse. Either it does not split into tokens, or it ends too early, or one of
its tokens does not fit; then every text with the same tokens up to that one fails alike. -/

namespace GraphQL

/-- A schema whose numbers and strings are those that every schema starts with. -/
structure Schema.HasLiterals (schema : Schema) : Prop where
  int : schema.type? (lit "Int") = some (.scalar Scalars.int)
  float : schema.type? (lit "Float") = some (.scalar Scalars.float)
  string : schema.type? (lit "String") = some (.scalar Scalars.string)

namespace Schema.HasLiterals

variable {schema : Schema} {l : Literal}

/-- A literal is read as what it is by itself, or refused as the token that it is. -/
theorem errs_inferScalar (h : schema.HasLiterals) (hl : ∃ text, l.cooked = .ok text) :
    Errs (· = .ofToken (.scalar l)) (schema.inferScalar l) := by
  cases l with
  | int digits =>
    exact errs_inferScalar_of_type? h.int (by simp [Scalars.builtin]) hl
  | float digits =>
    exact errs_inferScalar_of_type? h.float (by simp [Scalars.builtin]) hl
  | string style body =>
    exact errs_inferScalar_of_type? h.string (by simp [Scalars.builtin]) hl

/-- So it is where another scalar is expected. -/
theorem readScalar (h : schema.HasLiterals) (hl : ∃ text, l.cooked = .ok text)
    (expected : Option ScalarDef) :
    (∃ value, schema.readScalar expected l = .ok value) ∨
      schema.readScalar expected l = .error (.ofToken (.scalar l)) := by
  cases hread : schema.readScalar expected l with
  | ok value => exact .inl ⟨value, rfl⟩
  | error error =>
    obtain rfl := h.errs_inferScalar hl error (inferScalar_of_readScalar hread)
    exact .inr rfl

end Schema.HasLiterals

namespace Parser

variable {schema : Schema} {n m : Nat} {α : Type}

/-! ### References to types -/

theorem required_tracks (t : Located TypeRef) : Tracks 0 n m (required t) (required t) := by
  refine (Tracks.comes .exclamationMark).andThen (k := 0) fun present => ?_
  cases present with
  | true => exact ((Tracks.mark _).andThen fun _ => .pure _).weaken
  | false => exact .pure t

theorem typeRefUpTo_tracks (k l : Nat) :
    Tracks 1 (min n k) (min m l) (typeRefUpTo k) (typeRefUpTo l) := by
  refine Tracks.upTo (ι := Unit) (P := fun k _ => typeRefUpTo k) (Q := fun l _ => typeRefUpTo l)
    (fun k l ih _ => ?_) k l ()
  refine .skip?_bind (fun first => ?_) ?_
  · have helement : Tracks 1 (min n (k + 1) - 1) (min m (l + 1) - 1) (typeRefUpTo k)
        (typeRefUpTo l) := (ih ()).mono Nat.le.refl (by omega) (by omega)
    exact helement.andThen fun _ => (Tracks.mark _).andThen fun _ => required_tracks _
  · exact Tracks.name.andThen fun _ => required_tracks _

theorem typeRef_tracks : Tracks 1 n m typeRef typeRef := .fueled typeRefUpTo_tracks

/-! ### Literals -/

theorem variableRef_tracks : Tracks 1 n m variableRef variableRef :=
  (Tracks.mark _).andThen fun _ => Tracks.name.andThen fun _ => .pure _

theorem entry_tracks {value value' : Text → Parser (Located InputValue)}
    (h : ∀ key, Tracks 1 n m (value key) (value' key)) :
    Tracks 1 n m (entry value) (entry value') :=
  Tracks.name.andThen fun key => (Tracks.mark _).andThen fun _ =>
    (h key.value).andThen fun _ => .pure _

/-- A scalar that comes next is taken, and refused if it does not fit. -/
theorem scalarLiteral_tracked (h : schema.HasLiterals) (expected : Option TypeDef) {l : Literal}
    {s : Tokens} (hl : s.front.value = .scalar l) (hread : ∀ t ∈ s.pending, t.value.Denotes) :
    Tracked 1 m (scalarLiteral schema expected l) s (scalarLiteral schema expected l s) := by
  refine tracked_next s fun t ht => ?_
  have hfront : s.front = t := by
    obtain ⟨rest, hpending⟩ := List.head?_eq_some_iff.mp ht
    rw [Tokens.front, hpending]
  have hvalue : t.value = .scalar l := hfront ▸ hl
  have hcooked := hread t (List.mem_of_mem_head? ht) l hvalue
  rcases h.readScalar hcooked (expected.bind TypeDef.scalar?) with ⟨value, hok⟩ | herror
  · rw [hok]
    exact .inl ⟨_, rfl⟩
  · rw [herror, hvalue]
    exact .inr rfl

theorem literalUpTo_tracks (h : schema.HasLiterals) (isConst : Bool) (k l : Nat) :
    ∀ expected, Tracks 1 (min n k) (min m l) (literalUpTo schema isConst k expected)
      (literalUpTo schema isConst l expected) := by
  refine Tracks.upTo (fun k l ih expected => ?_) k l
  have hinside (expected : Option TypeDef) : Tracks 1 (min n (k + 1) - 1) (min m (l + 1) - 1)
      (literalUpTo schema isConst k expected) (literalUpTo schema isConst l expected) :=
    (ih expected).mono Nat.le.refl (by omega) (by omega)
  refine .peek fun s hlen hread => ?_
  cases hfront : s.front.value with
  | mark p =>
    cases p
    case bracketOpen =>
      exact ((Tracks.fueled (hinside expected).delimited).andThen fun _ => .pure _) s hlen hread
    case curlyOpen =>
      dsimp only
      split
      · have hentry := entry_tracks fun key => hinside (fieldType schema expected key)
        exact ((Tracks.fueled hentry.delimited).andThen fun _ => .pure _) s hlen hread
      · exact Tracks.unexpected s hlen hread
    case dollar =>
      dsimp only
      split
      · exact Tracks.unexpected s hlen hread
      · exact variableRef_tracks s hlen hread
    all_goals exact Tracks.unexpected s hlen hread
  | scalar literal => exact scalarLiteral_tracked h expected hfront hread
  | name text => exact (Tracks.next.andThen fun _ => .pure _) s hlen hread
  | endOfFile => exact Tracks.unexpected s hlen hread

theorem literal_tracks (h : schema.HasLiterals) (isConst : Bool) (expected : Option TypeDef) :
    Tracks 1 n m (literal schema isConst expected) (literal schema isConst expected) :=
  .fueled fun k l => literalUpTo_tracks h isConst k l expected

/-! ### Arguments and directives -/

theorem ifComes_tracks {p q : Parser α} {least : Nat} (h : Tracks least n m p q)
    (mark : Punctuator) : Tracks 0 n m (ifComes mark p) (ifComes mark q) := by
  refine (Tracks.comes mark).andThen (k := 0) fun present => ?_
  cases present with
  | true => exact (h.map some).weaken
  | false => exact .pure none

theorem arguments?_tracks (h : schema.HasLiterals) (defs : List ArgumentDef) :
    Tracks 0 n m (arguments? schema defs) (arguments? schema defs) :=
  ifComes_tracks (.fueled (entry_tracks fun _ => literal_tracks h _ _).delimitedSome) _

theorem directive_tracks (h : schema.HasLiterals) :
    Tracks 1 n m (directive schema) (directive schema) :=
  (Tracks.mark _).andThen fun _ => Tracks.name.andThen fun _ =>
    (arguments?_tracks h _).andThen fun _ => .pure _

theorem directivesUpTo_tracks (h : schema.HasLiterals) (k l : Nat) :
    Tracks 0 (min n k) (min m l) (directivesUpTo schema k) (directivesUpTo schema l) := by
  refine Tracks.upTo (ι := Unit) (P := fun k _ => directivesUpTo schema k)
    (Q := fun l _ => directivesUpTo schema l) (fun k l ih _ => ?_) k l ()
  refine (Tracks.comes .at).andThen (k := 0) fun present => ?_
  cases present with
  | true =>
    have hrest : Tracks 0 (min n (k + 1) - 1) (min m (l + 1) - 1) (directivesUpTo schema k)
        (directivesUpTo schema l) := (ih ()).mono Nat.le.refl (by omega) (by omega)
    exact ((directive_tracks h).bind fun _ => hrest.andThen fun _ => .pure _).weaken
  | false => exact .pure []

theorem directives?_tracks (h : schema.HasLiterals) :
    Tracks 0 n m (directives? schema) (directives? schema) :=
  ifComes_tracks (.fueled (directivesUpTo_tracks h)) _

/-! ### Selections -/

section Selections

variable {selection selection' : Fields → Parser Selection}

theorem selectionSet_tracks
    (hselection : ∀ fields, Tracks 1 (n - 1) (m - 1) (selection fields) (selection' fields))
    (fields : Fields) :
    Tracks 1 n m (selectionSet selection fields) (selectionSet selection' fields) :=
  .fueled (hselection fields).delimitedSome

theorem findFields_tracks (t : Option TypeDef) :
    Tracks 0 n m (findFields schema t) (findFields schema t) := by
  rcases findFields_eq_or schema t with hfound | ⟨hnone, -⟩
  · rw [hfound]
    exact .pure _
  · rw [hnone]
    exact fun _ _ _ => .endless

theorem inlineFragment_tracks (h : schema.HasLiterals)
    (hselection : ∀ fields, Tracks 1 (n - 1) (m - 1) (selection fields) (selection' fields))
    (start : Position) (condition : Option (Located Text)) {fields : Parser Fields}
    (hfields : Tracks 0 n m fields fields) :
    Tracks 0 n m (inlineFragment schema selection start condition fields)
      (inlineFragment schema selection' start condition fields) :=
  (directives?_tracks h).andThen fun _ => hfields.andThen fun _ =>
    (selectionSet_tracks hselection _).andThen fun _ => .pure _

theorem fragmentSelection_tracks (h : schema.HasLiterals)
    (hselection : ∀ fields, Tracks 1 (n - 1) (m - 1) (selection fields) (selection' fields))
    (fields : Fields) :
    Tracks 1 n m (fragmentSelection schema selection fields)
      (fragmentSelection schema selection' fields) := by
  refine (Tracks.mark .ellipsis).andThen (k := 0) fun first => .peek_bind fun t => ?_
  cases t.value with
  | name text =>
    dsimp only
    split
    · exact (Tracks.next.andThen fun _ => Tracks.name.andThen fun _ =>
        inlineFragment_tracks h hselection _ _ (findFields_tracks _)).weaken
    · exact (Tracks.name.andThen fun _ => (directives?_tracks h).andThen fun _ => .pure _).weaken
  | mark p =>
    cases p
    case curlyOpen => exact inlineFragment_tracks h hselection _ _ (.pure fields)
    case «at» => exact inlineFragment_tracks h hselection _ _ (.pure fields)
    all_goals exact .unexpected
  | scalar l => exact .unexpected
  | endOfFile => exact .unexpected

theorem fieldName_tracks : Tracks 1 n m fieldName fieldName :=
  Tracks.name.andThen fun _ =>
    .skip?_bind (fun _ => (Tracks.name.andThen fun _ => .pure _).weaken) (.pure _)

theorem fieldSelection_tracks (h : schema.HasLiterals)
    (hselection : ∀ fields, Tracks 1 (n - 1) (m - 1) (selection fields) (selection' fields))
    (fields : Fields) :
    Tracks 1 n m (fieldSelection schema selection fields)
      (fieldSelection schema selection' fields) :=
  fieldName_tracks.andThen fun _ => (arguments?_tracks h _).andThen fun _ =>
    (directives?_tracks h).andThen fun _ => (findFields_tracks _).andThen fun _ =>
      (ifComes_tracks (selectionSet_tracks hselection _) _).andThen fun _ => .pure _

end Selections

theorem selectionUpTo_tracks (h : schema.HasLiterals) (k l : Nat) : ∀ fields,
    Tracks 1 (min n k) (min m l) (selectionUpTo schema k fields) (selectionUpTo schema l fields) := by
  refine Tracks.upTo (fun k l ih fields => ?_) k l
  have hinside (fields : Fields) : Tracks 1 (min n (k + 1) - 1) (min m (l + 1) - 1)
      (selectionUpTo schema k fields) (selectionUpTo schema l fields) :=
    (ih fields).mono Nat.le.refl (by omega) (by omega)
  refine (Tracks.comes .ellipsis).bind (k := 1) fun present => ?_
  cases present with
  | true => exact fragmentSelection_tracks h hinside fields
  | false => exact fieldSelection_tracks h hinside fields

theorem selections_tracks (h : schema.HasLiterals) (fields : Fields) :
    Tracks 1 n m (selections schema fields) (selections schema fields) := by
  refine .fueled fun k l => selectionSet_tracks (fun fields => ?_) fields
  exact (selectionUpTo_tracks (n := n) (m := m) h k l fields).mono Nat.le.refl (Nat.sub_le _ _)
    (Nat.sub_le _ _)

/-! ### Definitions -/

theorem default?_tracks (h : schema.HasLiterals) (t : TypeRef) :
    Tracks 0 n m (default? schema t) (default? schema t) :=
  .skip?_bind (fun _ => ((literal_tracks h _ _).map some).weaken) (.pure none)

theorem variableDef_tracks (h : schema.HasLiterals) :
    Tracks 1 n m (variableDef schema) (variableDef schema) :=
  (Tracks.mark _).andThen fun _ => Tracks.name.andThen fun _ => (Tracks.mark _).andThen fun _ =>
    typeRef_tracks.andThen fun _ => (default?_tracks h _).andThen fun _ =>
      (directives?_tracks h).andThen fun _ => .pure _

theorem variableDefs?_tracks (h : schema.HasLiterals) :
    Tracks 0 n m (variableDefs? schema) (variableDefs? schema) :=
  ifComes_tracks (.fueled (variableDef_tracks h).delimitedSome) _

theorem keyword_tracks (text : Text) : Tracks 1 n m (keyword text) (keyword text) := by
  have hcomes : Tracks 0 n m (comesName text) (comesName text) := .peek_bind fun _ => .pure _
  refine hcomes.bind (k := 1) fun present => ?_
  cases present with
  | true => exact .next
  | false => exact .unexpected

theorem name?_tracks : Tracks 0 n m name? name? := by
  refine .peek_bind fun t => ?_
  split
  · exact (Tracks.name.map some).weaken
  · exact .pure none

theorem shorthand_tracks (h : schema.HasLiterals) :
    Tracks 1 n m (shorthand schema) (shorthand schema) :=
  (findFields_tracks _).bind fun _ => (selections_tracks h _).andThen fun _ => .pure _

theorem operation_tracks (h : schema.HasLiterals) (type : OperationType) :
    Tracks 1 n m (operation schema type) (operation schema type) :=
  (keyword_tracks _).andThen fun _ => name?_tracks.andThen fun _ =>
    (variableDefs?_tracks h).andThen fun _ => (directives?_tracks h).andThen fun _ =>
      (findFields_tracks _).andThen fun _ => (selections_tracks h _).andThen fun _ => .pure _

theorem fragmentDef_tracks (h : schema.HasLiterals) :
    Tracks 1 n m (fragmentDef schema) (fragmentDef schema) :=
  (keyword_tracks _).andThen fun _ => .name_bind fun _ =>
    (keyword_tracks _).andThen fun _ => Tracks.name.andThen fun _ =>
      (directives?_tracks h).andThen fun _ => (findFields_tracks _).andThen fun _ =>
        (selections_tracks h _).andThen fun _ => .pure _

theorem definition_tracks (h : schema.HasLiterals) :
    Tracks 1 n m (definition schema) (definition schema) := by
  refine .peek_bind fun t => ?_
  cases t.value with
  | mark p =>
    cases p
    case curlyOpen => exact (shorthand_tracks h).map _
    all_goals exact .unexpected
  | name text =>
    dsimp only
    split_ifs
    · exact (operation_tracks h .query).map _
    · exact (operation_tracks h .mutation).map _
    · exact (operation_tracks h .subscription).map _
    · exact (fragmentDef_tracks h).map _
    · exact .unexpected
  | scalar l => exact .unexpected
  | endOfFile => exact .unexpected

theorem definitionsUpTo_tracks (h : schema.HasLiterals) (k l : Nat) :
    Tracks 1 (min n k) (min m l) (definitionsUpTo schema k) (definitionsUpTo schema l) := by
  refine Tracks.upTo (ι := Unit) (P := fun k _ => definitionsUpTo schema k)
    (Q := fun l _ => definitionsUpTo schema l) (fun k l ih _ => ?_) k l ()
  have hrest : Tracks 0 (min n (k + 1) - 1) (min m (l + 1) - 1) (definitionsUpTo schema k)
      (definitionsUpTo schema l) := (ih ()).mono (Nat.zero_le 1) (by omega) (by omega)
  refine (definition_tracks h).bind (k := 0) fun d => .peek_bind fun t => ?_
  split
  · exact .pure [d]
  · exact hrest.andThen fun _ => .pure _

theorem document_tracks (h : schema.HasLiterals) :
    Tracks 1 n m (document schema) (document schema) :=
  .fueled (definitionsUpTo_tracks h)

end Parser

theorem Lexer.denotes_of_mem_run {t : Text} {a : Located Token}
    (ha : a ∈ (run (Source.ofText t)).tokens) : a.value.Denotes := by
  intro l hl
  cases l with
  | int digits => exact ⟨digits, rfl⟩
  | float digits => exact ⟨digits, rfl⟩
  | string style body =>
    obtain ⟨text, htext, -⟩ := exists_cooked_of_mem_run ha hl
    exact ⟨text, htext⟩

namespace Document

variable {schema : Schema} {t : Text}

theorem ofText_of_failure {failure : Lexer.Failure}
    (h : (Lexer.run (Source.ofText t)).ending = .error failure) :
    ofText schema t = .error (.refused (failure.error.map .lexer)) := by
  rw [ofText, Tokens.ofText, Tokens.ofSource]
  simp only [h]
  rfl

theorem ofText_of_ending {stop : Position}
    (h : (Lexer.run (Source.ofText t)).ending = .ok stop) :
    ofText schema t =
      match Parser.document schema ⟨(Lexer.run (Source.ofText t)).tokens, stop⟩ with
      | .ok doc _ => .ok doc
      | .error e _ => .error e := by
  rw [ofText, Tokens.ofText, Tokens.ofSource]
  simp only [h]
  rfl

/-- Parsing ends where unions do. -/
theorem ofText_ne_endless (hunions : schema.UnionsEnd) (t : Text) :
    ofText schema t ≠ .error .endless := by
  cases hending : (Lexer.run (Source.ofText t)).ending with
  | error failure =>
    rw [ofText_of_failure hending]
    nofun
  | ok stop =>
    rw [ofText_of_ending hending]
    have hblamed : Parser.Blamed schema ⟨(Lexer.run (Source.ofText t)).tokens, stop⟩
        (Parser.document schema ⟨(Lexer.run (Source.ofText t)).tokens, stop⟩) :=
      Parser.document_blames _
    generalize Parser.document schema ⟨(Lexer.run (Source.ofText t)).tokens, stop⟩ = r at hblamed
    cases hblamed with
    | endless hcircle => exact absurd hunions hcircle
    | _ => nofun

/-- A text becomes a document or is refused, where unions end. It is refused at a place of its own:
where it stops splitting into tokens, at its end, or at one of its tokens. Texts with the same
tokens up to that one are refused alike, whatever comes after it. -/
theorem ofText_failures (hschema : schema.HasLiterals) (t : Text) :
    (schema.UnionsEnd → (∃ doc, ofText schema t = .ok doc) ∨
      ∃ e, ofText schema t = .error (.refused e)) ∧
    (∀ failure, (Lexer.run (Source.ofText t)).ending = .error failure →
      ofText schema t = .error (.refused (failure.error.map .lexer))) ∧
    ∀ stop e, (Lexer.run (Source.ofText t)).ending = .ok stop →
      ofText schema t = .error (.refused e) →
      e = ⟨.unexpectedEndOfFile, .empty stop⟩ ∨
        ∃ before a after, (Lexer.run (Source.ofText t)).tokens = before ++ a :: after ∧
          e = ⟨.unexpectedToken a.value.toText, a.span⟩ ∧
          ∀ t' stop', (Lexer.run (Source.ofText t')).ending = .ok stop' →
            before ++ [a] <+: (Lexer.run (Source.ofText t')).tokens →
            ofText schema t' = .error (.refused e) := by
  refine ⟨fun hunions => ?_, fun failure h => ofText_of_failure h, fun stop e hstop he => ?_⟩
  · have hends := ofText_ne_endless hunions t
    cases hrun : ofText schema t with
    | ok doc => exact .inl ⟨doc, rfl⟩
    | error failure =>
      cases failure with
      | refused e => exact .inr ⟨e, rfl⟩
      | endless => exact absurd hrun hends
  rw [ofText_of_ending hstop] at he
  have htracked (m : Nat) := Parser.document_tracks (m := m) hschema
    ⟨(Lexer.run (Source.ofText t)).tokens, stop⟩ (Nat.lt_succ_self _)
    fun a ha => Lexer.denotes_of_mem_run ha
  generalize Parser.document schema ⟨(Lexer.run (Source.ofText t)).tokens, stop⟩ = r
    at he htracked
  cases htracked 0 with
  | ok => cases he
  | ended =>
    cases he
    exact .inl rfl
  | @refused after a before hsplit =>
    cases he
    refine .inr ⟨before, a, after, hsplit, rfl, ?_⟩
    rintro t' stop' hstop' ⟨more, hmore⟩
    rw [List.append_assoc, List.singleton_append] at hmore
    have hsame := (htracked ((before ++ a :: more).length + 1)).of_refused hsplit more stop'
      (Nat.lt_succ_self _)
    rw [ofText_of_ending hstop', ← hmore, hsame]
  | endless => cases he

end Document

namespace Overflow

/-- A schema of numbers and strings alone. -/
def schema : Schema :=
  ⟨[(lit "Int", .scalar Scalars.int), (lit "Float", .scalar Scalars.float),
      (lit "String", .scalar Scalars.string)], lit "Query", none, none, [], none⟩

/-- A text that ends in an integer of more than 32 bits. -/
def source : Text := lit "\x7b a(n: 2147483648"

/-- The same text, gone on with. -/
def longer : Text := source ++ lit ") \x7d"

def refusal : Located ParseError :=
  ⟨.unexpectedToken (lit "2147483648"), ⟨⟨7, 0, 7⟩, ⟨17, 0, 17⟩⟩⟩

theorem ofText_failures_overflow : schema.HasLiterals ∧ schema.UnionsEnd ∧
    ((∃ doc, Document.ofText schema source = .ok doc) ∨
      ∃ e, Document.ofText schema source = .error (.refused e)) ∧
    Document.ofText schema source = .error (.refused refusal) ∧
      Document.ofText schema longer = .error (.refused refusal) := by
  have hschema : schema.HasLiterals := ⟨rfl, rfl, rfl⟩
  have hunions : schema.UnionsEnd := by decide
  obtain ⟨hends, -, hfails⟩ := Document.ofText_failures hschema source
  have hrefused : Document.ofText schema source = .error (.refused refusal) := by rfl
  refine ⟨hschema, hunions, hends hunions, hrefused, ?_⟩
  obtain hend | ⟨before, a, after, htokens, -, hsame⟩ := hfails _ refusal rfl hrefused
  · cases hend
  · refine hsame longer _ rfl ?_
    have hprefix : (Lexer.run (Source.ofText source)).tokens <+:
        (Lexer.run (Source.ofText longer)).tokens := ⟨_, rfl⟩
    rw [htokens, List.append_cons] at hprefix
    exact (List.prefix_append _ after).trans hprefix

end Overflow

namespace Circle

/-- Where the fields of a union that lists itself are looked for, there is neither a document nor a
refusal. -/
theorem ofText_endless : schema.HasLiterals ∧ Document.ofText schema source = .error .endless ∧
    (∀ doc, Document.ofText schema source ≠ .ok doc) ∧
    ∀ e, Document.ofText schema source ≠ .error (.refused e) := by
  have hendless : Document.ofText schema source = .error .endless := by rfl
  refine ⟨⟨rfl, rfl, rfl⟩, hendless, ?_, ?_⟩
  · rw [hendless]
    nofun
  · rw [hendless]
    nofun

end Circle

end GraphQL
