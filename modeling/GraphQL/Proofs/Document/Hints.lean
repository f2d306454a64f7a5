import GraphQL.Proofs.Document.Exact
import GraphQL.Proofs.Parser.Agreement

/-! What a schema can change about a document. Types are at hand all through parsing, but they only
decide what the scalars of a document hold: where parsing succeeds with two schemas, the documents
differ in nothing else. -/

namespace GraphQL

namespace InputValue

mutual

/-- A value with what its scalars hold left out. -/
def blank : InputValue → InputValue
  | null => null
  | scalar _ => scalar (.boolean false)
  | enum name => enum name
  | var name => var name
  | list items => list (blankItems items)
  | object fields => object (blankEntries fields)

def blankItems : List (Located InputValue) → List (Located InputValue)
  | [] => []
  | ⟨v, span⟩ :: rest => ⟨v.blank, span⟩ :: blankItems rest

def blankEntries :
    List (Located Text × Located InputValue) → List (Located Text × Located InputValue)
  | [] => []
  | (key, ⟨v, span⟩) :: rest => (key, ⟨v.blank, span⟩) :: blankEntries rest

end

/-- A key and its value. -/
def blankEntry (entry : Located Text × Located InputValue) : Located Text × Located InputValue :=
  (entry.1, entry.2.map blank)

theorem blankItems_eq (items : List (Located InputValue)) :
    blankItems items = items.map (Located.map blank) := by
  induction items with
  | nil => rfl
  | cons v rest ih => rw [List.map_cons, ← ih]; rfl

theorem blankEntries_eq (entries : List (Located Text × Located InputValue)) :
    blankEntries entries = entries.map blankEntry := by
  induction entries with
  | nil => rfl
  | cons entry rest ih => rw [List.map_cons, ← ih]; rfl

theorem blank_list (items : Located (List (Located InputValue))) :
    (items.map list).map blank = (items.map (List.map (Located.map blank))).map list := by
  simp only [Located.map, blank, blankItems_eq]

theorem blank_object (fields : Located (List (Located Text × Located InputValue))) :
    (fields.map object).map blank = (fields.map (List.map blankEntry)).map object := by
  simp only [Located.map, blank, blankEntries_eq]

end InputValue

def Arguments.blank (args : Arguments) : Arguments := args.map InputValue.blankEntry

/-- Arguments that may be left out. -/
abbrev Arguments.blank? : Option (Located Arguments) → Option (Located Arguments) :=
  Option.map (Located.map Arguments.blank)

def Directive.blank (d : Directive) : Directive := ⟨d.name, Arguments.blank? d.arguments⟩

def Directives.blank (ds : Directives) : Directives := ds.map (Located.map Directive.blank)

abbrev Directives.blank? : Option Directives → Option Directives := Option.map Directives.blank

def FieldHead.blank (head : FieldHead) : FieldHead :=
  ⟨head.aliasName, head.name, Arguments.blank? head.arguments, Directives.blank? head.directives,
    head.span⟩

def Spread.blank (s : Spread) : Spread := ⟨s.name, Directives.blank? s.directives, s.span⟩

def InlineHead.blank (head : InlineHead) : InlineHead :=
  ⟨head.condition, Directives.blank? head.directives, head.span⟩

namespace Selection

mutual

def blank : Selection → Selection
  | field head none => field head.blank none
  | field head (some below) => field head.blank (some (blankSet below))
  | spread s => spread s.blank
  | inline head inside => inline head.blank (blankSet inside)

def blankSet : List Selection → List Selection
  | [] => []
  | s :: rest => s.blank :: blankSet rest

end

theorem blankSet_eq (xs : SelectionSet) : blankSet xs = xs.map blank := by
  induction xs with
  | nil => rfl
  | cons x rest ih => rw [List.map_cons, ← ih]; rfl

theorem blank_field (head : FieldHead) (below : Option SelectionSet) :
    blank (field head below) = field head.blank (below.map (List.map blank)) := by
  cases below with
  | none => rfl
  | some xs => rw [Option.map_some, ← blankSet_eq]; rfl

theorem blank_inline (head : InlineHead) (inside : SelectionSet) :
    blank (inline head inside) = inline head.blank (inside.map blank) := by
  rw [← blankSet_eq]; rfl

end Selection

def VariableDef.blank (d : VariableDef) : VariableDef :=
  ⟨d.name, d.type, d.default.map (Located.map InputValue.blank), Directives.blank? d.directives⟩

def Operation.blank (op : Operation) : Operation :=
  ⟨op.type, op.name, op.declaredVars.map (Located.map (List.map VariableDef.blank)),
    Directives.blank? op.directives, op.selections.map Selection.blank, op.span⟩

def Fragment.blank (f : Fragment) : Fragment :=
  ⟨f.name, f.condition, Directives.blank? f.directives, f.selections.map Selection.blank, f.span⟩

def Definition.blank : Definition → Definition
  | operation op => operation op.blank
  | fragment f => fragment f.blank

/-- A document with what its scalars hold left out, spans and all else kept. -/
def Document.blank (doc : Document) : Document := doc.map Definition.blank

namespace Parser

variable (schema schema' : Schema)

theorem ifComes_agree {α β : Type} {e : α → β} {p q : Parser α} (h : Agree e p q)
    (m : Punctuator) : Agree (Option.map e) (ifComes m p) (ifComes m q) := by
  refine .bind_same (comes m) fun present => ?_
  cases present with
  | true => exact h.map fun a b hab => congrArg some hab
  | false => exact .refl _ _

/-! ### Literals -/

theorem scalarLiteral_agree (expected expected' : Option TypeDef) (l : Literal) :
    Agree (Located.map InputValue.blank) (scalarLiteral schema expected l)
      (scalarLiteral schema' expected' l) := by
  refine .bind_same next fun t => ?_
  cases schema.readScalar (expected.bind TypeDef.scalar?) l with
  | error e => exact .failAt_left
  | ok s =>
    cases schema'.readScalar (expected'.bind TypeDef.scalar?) l with
    | error e => exact .failAt_right
    | ok s' => exact .pure rfl

theorem entry_agree {value value' : Text → Parser (Located InputValue)}
    (h : ∀ key, Agree (Located.map InputValue.blank) (value key) (value' key)) :
    Agree InputValue.blankEntry (entry value) (entry value') :=
  .bind_same name fun key => .bind_same (mark .colon) fun _ =>
    (h key.value).bind fun _ _ hv => .pure (Prod.ext rfl hv)

theorem literalUpTo_agree (isConst : Bool) (fuel : Nat) : ∀ expected expected' : Option TypeDef,
    Agree (Located.map InputValue.blank) (literalUpTo schema isConst fuel expected)
      (literalUpTo schema' isConst fuel expected') := by
  induction fuel with
  | zero => exact fun _ _ => .unexpected_left
  | succ fuel ih =>
    intro expected expected'
    refine .bind_same peek fun t => ?_
    cases t.value with
    | mark m =>
      cases m
      case bracketOpen =>
        refine (Agree.fueled (ih expected expected').delimited).bind fun items items' h => .pure ?_
        rw [InputValue.blank_list, InputValue.blank_list, h]
      case curlyOpen =>
        -- one of the types may rule an object out, and then there is only one success
        simp only
        split_ifs
        · have hentry := entry_agree fun key =>
            ih (fieldType schema expected key) (fieldType schema' expected' key)
          refine (Agree.fueled hentry.delimited).bind fun fields fields' h => .pure ?_
          rw [InputValue.blank_object, InputValue.blank_object, h]
        · exact .unexpected_right
        · exact .unexpected_left
        · exact .unexpected_left
      all_goals exact .refl _ _
    | scalar l => exact scalarLiteral_agree schema schema' expected expected' l
    | name text => exact .refl _ _
    | endOfFile => exact .refl _ _

theorem literal_agree (isConst : Bool) (expected expected' : Option TypeDef) :
    Agree (Located.map InputValue.blank) (literal schema isConst expected)
      (literal schema' isConst expected') :=
  .fueled fun fuel => literalUpTo_agree schema schema' isConst fuel expected expected'

/-! ### Arguments and directives -/

theorem arguments?_agree (defs defs' : List ArgumentDef) :
    Agree Arguments.blank? (arguments? schema defs) (arguments? schema' defs') :=
  ifComes_agree (.fueled (entry_agree fun _ => literal_agree schema schema' _ _ _).delimitedSome) _

/-- What a view of values keeps of something located that may be left out: the span, and the view
of the value. -/
theorem located_of_view {α β : Type} {e : α → β} {o o' : Option (Located α)}
    (h : o.map (Located.map e) = o'.map (Located.map e)) :
    o.map (·.span) = o'.map (·.span) ∧ (o.map (·.value)).map e = (o'.map (·.value)).map e := by
  have hspans := congrArg (Option.map (·.span)) h
  have hvalues := congrArg (Option.map (·.value)) h
  simp only [Option.map_map] at hspans hvalues ⊢
  exact ⟨hspans, hvalues⟩

theorem directive_agree :
    Agree (Located.map Directive.blank) (directive schema) (directive schema') := by
  refine .bind_same (mark .at) fun first => .bind_same name fun n => ?_
  refine (arguments?_agree schema schema' _ _).bind fun args args' h => .pure ?_
  simp only [Located.map, Directive.blank, h, (located_of_view h).1]

theorem directivesUpTo_agree (fuel : Nat) :
    Agree Directives.blank (directivesUpTo schema fuel) (directivesUpTo schema' fuel) := by
  induction fuel with
  | zero => exact .refl _ _
  | succ fuel ih =>
    refine .bind_same (comes .at) fun present => ?_
    cases present with
    | true =>
      refine (directive_agree schema schema').bind fun d d' hd => ih.bind fun ds ds' hds => .pure ?_
      unfold Directives.blank at hds ⊢
      rw [List.map_cons, List.map_cons, hd, hds]
    | false => exact .pure rfl

theorem directives?_agree :
    Agree Directives.blank? (directives? schema) (directives? schema') :=
  ifComes_agree (.fueled (directivesUpTo_agree schema schema')) _

theorem endOf_of_blank {ds ds' : Option Directives}
    (h : Directives.blank? ds = Directives.blank? ds') (before : Span) :
    endOf ds before = endOf ds' before := by
  have hblank (ds : Option Directives) : endOf (Directives.blank? ds) before = endOf ds before := by
    cases ds with
    | none => rfl
    | some ds => simp [endOf, Directives.blank, Located.map, Function.comp_def]
  rw [← hblank ds, h, hblank ds']

/-! ### Selections -/

section Selections

variable {selection selection' : Fields → Parser Selection}

theorem selectionSet_agree
    (h : ∀ fields fields', Agree Selection.blank (selection fields) (selection' fields'))
    (fields fields' : Fields) :
    Agree (Located.map (List.map Selection.blank)) (selectionSet selection fields)
      (selectionSet selection' fields') :=
  .fueled (h fields fields').delimitedSome

/-- Whatever each schema lets be selected, no token is taken to find it. -/
theorem findFields_agree (t t' : Option TypeDef) :
    Agree (fun _ => ()) (findFields schema t) (findFields schema' t') := by
  intro s found s₁ found' s₂ hfound hfound'
  obtain ⟨-, rfl⟩ := findFields_ok hfound
  obtain ⟨-, rfl⟩ := findFields_ok hfound'
  exact ⟨rfl, rfl⟩

theorem inlineFragment_agree
    (h : ∀ fields fields', Agree Selection.blank (selection fields) (selection' fields'))
    (start : Position) (condition : Option (Located Text)) {find find' : Parser Fields}
    (hfind : Agree (fun _ => ()) find find') :
    Agree Selection.blank (inlineFragment schema selection start condition find)
      (inlineFragment schema' selection' start condition find') := by
  refine (directives?_agree schema schema').bind fun ds ds' hds => ?_
  refine hfind.bind fun fields fields' _ => ?_
  refine (selectionSet_agree h fields fields').bind_located fun body body' span hset => .pure ?_
  simp only [Selection.blank_inline, InlineHead.blank, hds, hset]

theorem fragmentSelection_agree
    (h : ∀ fields fields', Agree Selection.blank (selection fields) (selection' fields'))
    (fields fields' : Fields) :
    Agree Selection.blank (fragmentSelection schema selection fields)
      (fragmentSelection schema' selection' fields') := by
  refine .bind_same (mark .ellipsis) fun first => .bind_same peek fun t => ?_
  cases t.value with
  | name text =>
    simp only
    split_ifs
    · refine .bind_same next fun _ => .bind_same name fun condition => ?_
      exact inlineFragment_agree schema schema' h _ _ (findFields_agree schema schema' _ _)
    · refine .bind_same name fun n => (directives?_agree schema schema').bind fun ds ds' hds => ?_
      refine .pure ?_
      simp only [Selection.blank, Spread.blank, hds, endOf_of_blank hds]
  | mark m =>
    cases m
    case curlyOpen => exact inlineFragment_agree schema schema' h _ _ (.pure rfl)
    case «at» => exact inlineFragment_agree schema schema' h _ _ (.pure rfl)
    all_goals exact .refl _ _
  | scalar l => exact .refl _ _
  | endOfFile => exact .refl _ _

theorem fieldSelection_agree
    (h : ∀ fields fields', Agree Selection.blank (selection fields) (selection' fields'))
    (fields fields' : Fields) :
    Agree Selection.blank (fieldSelection schema selection fields)
      (fieldSelection schema' selection' fields') := by
  refine .bind_same fieldName fun names => ?_
  refine (arguments?_agree schema schema' _ _).bind fun args args' hargs => ?_
  refine (directives?_agree schema schema').bind fun ds ds' hds => ?_
  refine (findFields_agree schema schema' _ _).bind fun below below' _ => ?_
  refine (ifComes_agree (selectionSet_agree h _ _) .curlyOpen).bind fun body body' hbody => .pure ?_
  obtain ⟨hspans, hsets⟩ := located_of_view hbody
  have hstops : body.map (·.span.stop) = body'.map (·.span.stop) := by
    have hstops := congrArg (Option.map Span.stop) hspans
    rwa [Option.map_map, Option.map_map] at hstops
  simp only [Selection.blank_field, FieldHead.blank, hargs, hds, hstops, hsets,
    (located_of_view hargs).1, endOf_of_blank hds]

end Selections

theorem selectionUpTo_agree (fuel : Nat) : ∀ fields fields' : Fields,
    Agree Selection.blank (selectionUpTo schema fuel fields)
      (selectionUpTo schema' fuel fields') := by
  induction fuel with
  | zero => exact fun _ _ => .unexpected_left
  | succ fuel ih =>
    intro fields fields'
    refine .bind_same (comes .ellipsis) fun present => ?_
    cases present with
    | true => exact fragmentSelection_agree schema schema' ih fields fields'
    | false => exact fieldSelection_agree schema schema' ih fields fields'

theorem selections_agree (fields fields' : Fields) :
    Agree (Located.map (List.map Selection.blank)) (selections schema fields)
      (selections schema' fields') :=
  .fueled fun fuel => selectionSet_agree (selectionUpTo_agree schema schema' fuel) fields fields'

/-! ### Definitions -/

theorem default?_agree (t : TypeRef) :
    Agree (Option.map (Located.map InputValue.blank)) (default? schema t) (default? schema' t) := by
  refine .bind_same (skip? (.mark .equals)) fun equals => ?_
  cases equals with
  | some _ => exact (literal_agree schema schema' _ _ _).map fun v v' h => congrArg some h
  | none => exact .refl _ _

theorem variableDef_agree :
    Agree VariableDef.blank (variableDef schema) (variableDef schema') := by
  refine .bind_same (mark .dollar) fun dollar => .bind_same name fun n => ?_
  refine .bind_same (mark .colon) fun _ => .bind_same typeRef fun t => ?_
  refine (default?_agree schema schema' t.value).bind fun v v' hv => ?_
  refine (directives?_agree schema schema').bind fun ds ds' hds => .pure ?_
  simp only [VariableDef.blank, hv, hds]

theorem variableDefs?_agree :
    Agree (Option.map (Located.map (List.map VariableDef.blank))) (variableDefs? schema)
      (variableDefs? schema') :=
  ifComes_agree (.fueled (variableDef_agree schema schema').delimitedSome) _

theorem shorthand_agree : Agree Operation.blank (shorthand schema) (shorthand schema') := by
  refine (findFields_agree schema schema' _ _).bind fun fields fields' _ => ?_
  refine (selections_agree schema schema' _ _).bind_located fun body body' span hset => .pure ?_
  simp only [Operation.blank, hset]

theorem operation_agree (type : OperationType) :
    Agree Operation.blank (operation schema type) (operation schema' type) := by
  refine .bind_same (keyword type.toText) fun first => .bind_same name? fun n => ?_
  refine (variableDefs?_agree schema schema').bind fun vars vars' hvars => ?_
  refine (directives?_agree schema schema').bind fun ds ds' hds => ?_
  refine (findFields_agree schema schema' _ _).bind fun fields fields' _ => ?_
  refine (selections_agree schema schema' _ _).bind_located fun body body' span hset => .pure ?_
  simp only [Operation.blank, hvars, hds, hset]

theorem fragmentDef_agree : Agree Fragment.blank (fragmentDef schema) (fragmentDef schema') := by
  refine .bind_same (keyword (lit "fragment")) fun first => .bind_same name fun n => ?_
  split_ifs
  · exact .failAt_bind
  · refine .bind_same (keyword (lit "on")) fun _ => .bind_same name fun condition => ?_
    refine (directives?_agree schema schema').bind fun ds ds' hds => ?_
    refine (findFields_agree schema schema' _ _).bind fun fields fields' _ => ?_
    refine (selections_agree schema schema' _ _).bind_located fun body body' span hset => .pure ?_
    simp only [Fragment.blank, hds, hset]

theorem definition_agree : Agree Definition.blank (definition schema) (definition schema') := by
  have hoperation (type : OperationType) :
      Agree Definition.blank (.operation <$> operation schema type)
        (.operation <$> operation schema' type) :=
    (operation_agree schema schema' type).map fun _ _ h => congrArg Definition.operation h
  refine .bind_same peek fun t => ?_
  cases t.value with
  | mark m =>
    cases m
    case curlyOpen =>
      exact (shorthand_agree schema schema').map fun _ _ h => congrArg Definition.operation h
    all_goals exact .refl _ _
  | name text =>
    simp only
    split_ifs
    · exact hoperation .query
    · exact hoperation .mutation
    · exact hoperation .subscription
    · exact (fragmentDef_agree schema schema').map fun _ _ h => congrArg Definition.fragment h
    · exact .refl _ _
  | scalar l => exact .refl _ _
  | endOfFile => exact .refl _ _

theorem definitionsUpTo_agree (fuel : Nat) :
    Agree Document.blank (definitionsUpTo schema fuel) (definitionsUpTo schema' fuel) := by
  induction fuel with
  | zero => exact .refl _ _
  | succ fuel ih =>
    refine (definition_agree schema schema').bind fun d d' hd => .bind_same peek fun t => ?_
    split_ifs
    · exact .pure (congrArg (fun d => [d]) hd)
    · exact ih.bind fun doc doc' hdoc => .pure (congrArg₂ List.cons hd hdoc)

end Parser

/-- Two schemas never make two documents of one text: where parsing succeeds with both, the
documents are the same, spans included, but for what their scalars hold. -/
theorem Document.blank_eq_of_ofText {schema schema' : Schema} {t : Text} {doc doc' : Document}
    (h : ofText schema t = .ok doc) (h' : ofText schema' t = .ok doc') :
    doc.blank = doc'.blank := by
  obtain ⟨tokens, s, htokens, hdoc⟩ := ofText_eq_ok_iff.mp h
  obtain ⟨tokens', s', htokens', hdoc'⟩ := ofText_eq_ok_iff.mp h'
  obtain rfl : tokens = tokens' := Except.ok.inj (htokens.symm.trans htokens')
  have hagree : Parser.Agree Document.blank (Parser.document schema) (Parser.document schema') :=
    .fueled (Parser.definitionsUpTo_agree schema schema')
  exact (hagree hdoc hdoc').1

namespace Switch

/-- A schema that knows numbers and no scalar that takes them for truth values. -/
def numbers : Schema :=
  ⟨[(lit "Int", .scalar Scalars.int), (lit "Query", .object query)], lit "Query", none, none, [],
    none⟩

/-- The two schemas disagree about what is written, and about nothing else. -/
theorem blank_eq_of_ofText_source : ∃ doc doc' : Document,
    Document.ofText schema source = .ok doc ∧ Document.ofText numbers source = .ok doc' ∧
      doc ≠ doc' ∧ doc.blank = doc'.blank := by
  obtain ⟨doc, doc', h, h', hne⟩ : ∃ doc doc' : Document,
      Document.ofText schema source = .ok doc ∧ Document.ofText numbers source = .ok doc' ∧
        doc ≠ doc' := ⟨_, _, rfl, rfl, nofun⟩
  exact ⟨doc, doc', h, h', hne, Document.blank_eq_of_ofText h h'⟩

end Switch

end GraphQL
