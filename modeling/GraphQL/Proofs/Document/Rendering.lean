import Mathlib.Data.List.Forall2
import GraphQL.Document.Parser

/-! Documents as the tokens they are written with. The rendering of a document leaves open how its
scalars are written: in their place stands the scalar with the type that is expected there. -/

namespace GraphQL

/-- A token, or the place of a scalar where a type may be expected. -/
inductive Piece where
  | token (t : Token)
  | scalar (expected : Option TypeDef) (s : Scalar)

namespace Piece

def mark (p : Punctuator) : Piece := .token (.mark p)

def name (n : Text) : Piece := .token (.name n)

/-- Pieces between marks. -/
def between (opening closing : Punctuator) (inner : List Piece) : List Piece :=
  mark opening :: (inner ++ [mark closing])

/-- A scalar is written by a literal that reads as it where its type is expected; a truth value by
its name, too. -/
inductive Fits (schema : Schema) : Token → Piece → Prop
  | token (t : Token) : Fits schema t (.token t)
  | literal {l : Literal} {expected : Option TypeDef} {s : Scalar} :
      schema.readScalar (expected.bind TypeDef.scalar?) l = .ok s →
      Fits schema (.scalar l) (.scalar expected s)
  | boolean (expected : Option TypeDef) (b : Bool) :
      Fits schema (.name (Scalar.boolText b)) (.scalar expected (.boolean b))

end Piece

/-- Tokens that are a way to write some pieces. -/
def Writes (schema : Schema) (pieces : List Piece) (ts : List Token) : Prop :=
  List.Forall₂ (Piece.Fits schema) ts pieces

section Writes

variable {schema : Schema} {ps qs : List Piece} {ts : List Token}

@[simp] theorem writes_nil : Writes schema [] ts ↔ ts = [] := List.forall₂_nil_right_iff

theorem writes_append : Writes schema (ps ++ qs) ts ↔
    ∃ us vs, ts = us ++ vs ∧ Writes schema ps us ∧ Writes schema qs vs := by
  refine ⟨fun h => ?_, ?_⟩
  · exact ⟨ts.take ps.length, ts.drop ps.length, (List.take_append_drop _ _).symm,
      List.forall₂_take_append ts ps qs h, List.forall₂_drop_append ts ps qs h⟩
  · rintro ⟨us, vs, rfl, hps, hqs⟩
    exact List.rel_append hps hqs

theorem writes_cons {piece : Piece} : Writes schema (piece :: ps) ts ↔
    ∃ t us, ts = t :: us ∧ piece.Fits schema t ∧ Writes schema ps us := by
  rw [Writes, List.forall₂_cons_right_iff]
  exact ⟨fun ⟨t, us, h, hps, ht⟩ => ⟨t, us, ht, h, hps⟩,
    fun ⟨t, us, ht, h, hps⟩ => ⟨t, us, h, hps, ht⟩⟩

theorem fits_token {t u : Token} : Piece.Fits schema u (.token t) ↔ u = t :=
  ⟨fun h => by cases h; rfl, fun h => h ▸ .token u⟩

@[simp] theorem writes_token {t : Token} : Writes schema (.token t :: ps) ts ↔
    ∃ us, ts = t :: us ∧ Writes schema ps us := by
  rw [writes_cons]
  simp only [fits_token]
  exact ⟨fun ⟨_, us, h, rfl, hps⟩ => ⟨us, h, hps⟩, fun ⟨us, h, hps⟩ => ⟨t, us, h, rfl, hps⟩⟩

@[simp] theorem writes_mark {p : Punctuator} : Writes schema (.mark p :: ps) ts ↔
    ∃ us, ts = .mark p :: us ∧ Writes schema ps us := writes_token

@[simp] theorem writes_name {n : Text} : Writes schema (.name n :: ps) ts ↔
    ∃ us, ts = .name n :: us ∧ Writes schema ps us := writes_token

theorem writes_tokens {us : List Token} : Writes schema (us.map .token) ts ↔ ts = us := by
  induction us generalizing ts with
  | nil => exact writes_nil
  | cons u us ih =>
    rw [List.map_cons, writes_token]
    simp only [ih]
    exact ⟨fun ⟨_, h, h'⟩ => h' ▸ h, fun h => ⟨us, h, rfl⟩⟩

theorem writes_between {opening closing : Punctuator} :
    Writes schema (Piece.between opening closing ps) ts ↔
      ∃ us, ts = .mark opening :: (us ++ [.mark closing]) ∧ Writes schema ps us := by
  simp only [Piece.between, writes_mark, writes_append, writes_nil]
  exact ⟨fun ⟨_, h, us, _, h', hps, _, h'', hnil⟩ => ⟨us, by rw [h, h', h'', hnil], hps⟩,
    fun ⟨us, h, hps⟩ => ⟨_, h, us, _, rfl, hps, [], rfl, rfl⟩⟩

theorem Writes.nil : Writes schema [] [] := List.Forall₂.nil

theorem Writes.mark (p : Punctuator) (h : Writes schema ps ts) :
    Writes schema (.mark p :: ps) (.mark p :: ts) :=
  .cons (.token _) h

theorem Writes.name (n : Text) (h : Writes schema ps ts) :
    Writes schema (.name n :: ps) (.name n :: ts) :=
  .cons (.token _) h

theorem Writes.append {us vs : List Token} (hps : Writes schema ps us) (hqs : Writes schema qs vs) :
    Writes schema (ps ++ qs) (us ++ vs) :=
  List.rel_append hps hqs

end Writes

namespace TypeRef

def tokens : TypeRef → List Token
  | named name nonNull => .name name :: bangTokens nonNull
  | list element _ nonNull =>
    .mark .bracketOpen :: (element.tokens ++ (.mark .bracketClose :: bangTokens nonNull))
where
  bangTokens (nonNull : Bool) : List Token := if nonNull then [.mark .exclamationMark] else []

/-- `true` of a type that can be written: no list in it says how many items it expects. -/
def isUnsized : TypeRef → Bool
  | named _ _ => true
  | list element size _ => size.isNone && element.isUnsized

end TypeRef

namespace InputValue

mutual

/-- A value where a type may be expected. -/
def pieces (schema : Schema) (expected : Option TypeDef) : InputValue → List Piece
  | null => [.name (lit "null")]
  | scalar s => [.scalar expected s]
  | enum name => [.name name]
  | var name => [.mark .dollar, .name name]
  | list items => Piece.between .bracketOpen .bracketClose (itemPieces schema expected items)
  | object fields =>
    Piece.between .curlyOpen .curlyClose
      (entryPieces schema (Parser.fieldType schema expected) fields)

def itemPieces (schema : Schema) (expected : Option TypeDef) :
    List (Located InputValue) → List Piece
  | [] => []
  | ⟨v, _⟩ :: rest => v.pieces schema expected ++ itemPieces schema expected rest

/-- Keys with their values, where a type may be expected for each key. -/
def entryPieces (schema : Schema) (expected : Text → Option TypeDef) :
    List (Located Text × Located InputValue) → List Piece
  | [] => []
  | (key, ⟨v, _⟩) :: rest =>
    .name key.value :: .mark .colon :: v.pieces schema (expected key.value) ++
      entryPieces schema expected rest

end

mutual

/-- `true` of a value that reads as itself: enum values are no words of the language, a constant
holds no variables, and objects stand where an object is admitted. -/
def isWellFormed (schema : Schema) (isConst : Bool) (expected : Option TypeDef) : InputValue → Bool
  | null => true
  | scalar _ => true
  | enum name => !([lit "true", lit "false", lit "null"].contains name)
  | var _ => !isConst
  | list items => areWellFormed schema isConst expected items
  | object fields =>
    Parser.admitsObject expected &&
      entriesWellFormed schema isConst (Parser.fieldType schema expected) fields

def areWellFormed (schema : Schema) (isConst : Bool) (expected : Option TypeDef) :
    List (Located InputValue) → Bool
  | [] => true
  | ⟨v, _⟩ :: rest =>
    v.isWellFormed schema isConst expected && areWellFormed schema isConst expected rest

def entriesWellFormed (schema : Schema) (isConst : Bool) (expected : Text → Option TypeDef) :
    List (Located Text × Located InputValue) → Bool
  | [] => true
  | (key, ⟨v, _⟩) :: rest =>
    v.isWellFormed schema isConst (expected key.value) &&
      entriesWellFormed schema isConst expected rest

end

mutual

/-- A value without the spans of its parts. -/
def unlocated : InputValue → InputValue
  | null => null
  | scalar s => scalar s
  | enum name => enum name
  | var name => var name
  | list items => list (unlocatedItems items)
  | object fields => object (unlocatedEntries fields)

def unlocatedItems : List (Located InputValue) → List (Located InputValue)
  | [] => []
  | ⟨v, _⟩ :: rest => .unlocated v.unlocated :: unlocatedItems rest

def unlocatedEntries :
    List (Located Text × Located InputValue) → List (Located Text × Located InputValue)
  | [] => []
  | (key, ⟨v, _⟩) :: rest =>
    (.unlocated key.value, .unlocated v.unlocated) :: unlocatedEntries rest

end

end InputValue

/-- What may be left out counts as fine when it is. -/
def whenPresent {α : Type} (p : α → Bool) (o : Option α) : Bool := o.all p

/-- The type expected of an argument. -/
def argumentType (schema : Schema) (defs : List ArgumentDef) (key : Text) : Option TypeDef :=
  (defs.find? (·.name == key)).bind fun d => schema.lookup? d.type

namespace Arguments

variable (schema : Schema) (defs : List ArgumentDef)

def pieces (args : Arguments) : List Piece :=
  Piece.between .parenOpen .parenClose
    (InputValue.entryPieces schema (argumentType schema defs) args)

/-- Parentheses hold at least one argument. -/
def isWellFormed (args : Arguments) : Bool :=
  !args.isEmpty && InputValue.entriesWellFormed schema false (argumentType schema defs) args

def unlocated (args : Arguments) : Arguments := InputValue.unlocatedEntries args

end Arguments

/-- What a part renders as, which may be left out. -/
def piecesOf {α : Type} (f : α → List Piece) (o : Option α) : List Piece := (o.map f).getD []

namespace Directive

variable (schema : Schema)

/-- The arguments that a directive of some name takes. -/
def argumentDefs (name : Text) : List ArgumentDef :=
  ((schema.directive? name).map (·.arguments)).getD []

def pieces (d : Directive) : List Piece :=
  .mark .at :: .name d.name.value ::
    piecesOf (fun args => args.value.pieces schema (argumentDefs schema d.name.value)) d.arguments

def isWellFormed (d : Directive) : Bool :=
  whenPresent (fun args => args.value.isWellFormed schema (argumentDefs schema d.name.value))
    d.arguments

def unlocated (d : Directive) : Directive :=
  ⟨.unlocated d.name.value, d.arguments.map fun args => .unlocated args.value.unlocated⟩

end Directive

namespace Directives

variable (schema : Schema)

def pieces (ds : Directives) : List Piece := ds.flatMap fun d => d.value.pieces schema

def isWellFormed (ds : Directives) : Bool :=
  !ds.isEmpty && ds.all fun d => d.value.isWellFormed schema

def unlocated (ds : Directives) : Directives := ds.map fun d => .unlocated d.value.unlocated

end Directives

namespace FieldHead

variable (schema : Schema) (fields : Parser.Fields)

/-- The definition of a selected field, where it is known. -/
def definition? (name : Text) : Option FieldDef := fields.bind (·.find? (·.name == name))

/-- The arguments that a selected field takes. -/
def argumentDefs (name : Text) : List ArgumentDef :=
  ((definition? fields name).bind (·.arguments)).getD []

/-- What can be selected below a field. -/
def fieldsBelow (name : Text) : Parser.Fields :=
  Parser.fieldsOf schema ((definition? fields name).bind fun d => schema.lookup? d.type)

def pieces (head : FieldHead) : List Piece :=
  piecesOf (fun a => [.name a.value, .mark .colon]) head.aliasName ++ .name head.name.value ::
    (piecesOf (fun args => args.value.pieces schema (argumentDefs fields head.name.value))
      head.arguments ++ piecesOf (Directives.pieces schema) head.directives)

def isWellFormed (head : FieldHead) : Bool :=
  whenPresent (fun args => args.value.isWellFormed schema (argumentDefs fields head.name.value))
    head.arguments && whenPresent (Directives.isWellFormed schema) head.directives

def unlocated (head : FieldHead) : FieldHead :=
  ⟨head.aliasName.map fun a => .unlocated a.value, .unlocated head.name.value,
    head.arguments.map fun args => .unlocated args.value.unlocated,
    head.directives.map Directives.unlocated, .unlocated⟩

end FieldHead

namespace Spread

variable (schema : Schema)

def pieces (s : Spread) : List Piece :=
  .mark .ellipsis :: .name s.name.value :: piecesOf (Directives.pieces schema) s.directives

/-- The word before a type condition is no name of a fragment. -/
def isWellFormed (s : Spread) : Bool :=
  s.name.value != lit "on" && whenPresent (Directives.isWellFormed schema) s.directives

def unlocated (s : Spread) : Spread :=
  ⟨.unlocated s.name.value, s.directives.map Directives.unlocated, .unlocated⟩

end Spread

namespace InlineHead

variable (schema : Schema) (fields : Parser.Fields)

/-- What can be selected in a fragment: on its type condition, or else where it stands. -/
def fieldsInside (condition : Option (Located Text)) : Parser.Fields :=
  match condition with
  | some name => Parser.fieldsOf schema (schema.type? name.value)
  | none => fields

def pieces (head : InlineHead) : List Piece :=
  .mark .ellipsis :: (piecesOf (fun c => [.name (lit "on"), .name c.value]) head.condition ++
    piecesOf (Directives.pieces schema) head.directives)

def isWellFormed (head : InlineHead) : Bool :=
  whenPresent (Directives.isWellFormed schema) head.directives

def unlocated (head : InlineHead) : InlineHead :=
  ⟨head.condition.map fun c => .unlocated c.value, head.directives.map Directives.unlocated,
    .unlocated⟩

end InlineHead

namespace Selection

variable (schema : Schema)

mutual

/-- A selection where certain fields can be selected. -/
def pieces (fields : Parser.Fields) : Selection → List Piece
  | field head none => head.pieces schema fields
  | field head (some below) =>
    head.pieces schema fields ++ Piece.between .curlyOpen .curlyClose
      (setPieces (FieldHead.fieldsBelow schema fields head.name.value) below)
  | spread s => s.pieces schema
  | inline head inside =>
    head.pieces schema ++ Piece.between .curlyOpen .curlyClose
      (setPieces (InlineHead.fieldsInside schema fields head.condition) inside)

def setPieces (fields : Parser.Fields) : List Selection → List Piece
  | [] => []
  | s :: rest => s.pieces fields ++ setPieces fields rest

end

mutual

/-- Braces hold at least one selection. -/
def isWellFormed (fields : Parser.Fields) : Selection → Bool
  | field head none => head.isWellFormed schema fields
  | field head (some below) =>
    head.isWellFormed schema fields && !below.isEmpty &&
      areWellFormed (FieldHead.fieldsBelow schema fields head.name.value) below
  | spread s => s.isWellFormed schema
  | inline head inside =>
    head.isWellFormed schema && !inside.isEmpty &&
      areWellFormed (InlineHead.fieldsInside schema fields head.condition) inside

def areWellFormed (fields : Parser.Fields) : List Selection → Bool
  | [] => true
  | s :: rest => s.isWellFormed fields && areWellFormed fields rest

end

mutual

/-- A selection without spans. -/
def unlocated : Selection → Selection
  | field head none => field head.unlocated none
  | field head (some below) => field head.unlocated (some (unlocatedSet below))
  | spread s => spread s.unlocated
  | inline head inside => inline head.unlocated (unlocatedSet inside)

def unlocatedSet : List Selection → List Selection
  | [] => []
  | s :: rest => s.unlocated :: unlocatedSet rest

end

end Selection

namespace SelectionSet

variable (schema : Schema) (fields : Parser.Fields)

def pieces (selections : SelectionSet) : List Piece :=
  Piece.between .curlyOpen .curlyClose (Selection.setPieces schema fields selections)

def isWellFormed (selections : SelectionSet) : Bool :=
  !selections.isEmpty && Selection.areWellFormed schema fields selections

end SelectionSet

namespace VariableDef

variable (schema : Schema)

def pieces (d : VariableDef) : List Piece :=
  .mark .dollar :: .name d.name.value :: .mark .colon :: (d.type.value.tokens.map Piece.token ++
    (piecesOf (fun v => .mark .equals :: v.value.pieces schema (schema.lookup? d.type.value))
      d.default ++ piecesOf (Directives.pieces schema) d.directives))

/-- A default is constant. -/
def isWellFormed (d : VariableDef) : Bool :=
  d.type.value.isUnsized &&
    (whenPresent (fun v => v.value.isWellFormed schema true (schema.lookup? d.type.value))
      d.default && whenPresent (Directives.isWellFormed schema) d.directives)

def unlocated (d : VariableDef) : VariableDef :=
  ⟨.unlocated d.name.value, .unlocated d.type.value,
    d.default.map fun v => .unlocated v.value.unlocated, d.directives.map Directives.unlocated⟩

end VariableDef

namespace Operation

variable (schema : Schema)

/-- What can be selected at the root of an operation. -/
def rootFields (type : OperationType) : Parser.Fields := Parser.fieldsOf schema (schema.root? type)

/-- A query that its selections alone can stand for. -/
def isBare (op : Operation) : Bool :=
  op.type == .query && op.name.isNone && op.declaredVars.isNone && op.directives.isNone

def variablePieces (defs : List VariableDef) : List Piece :=
  Piece.between .parenOpen .parenClose (defs.flatMap (VariableDef.pieces schema))

/-- Parentheses hold at least one variable. -/
def variablesWellFormed (defs : List VariableDef) : Bool :=
  !defs.isEmpty && defs.all (VariableDef.isWellFormed schema)

def pieces (op : Operation) : List Piece :=
  .name op.type.toText :: (piecesOf (fun n => [.name n.value]) op.name ++
    (piecesOf (fun defs => variablePieces schema defs.value) op.declaredVars ++
      (piecesOf (Directives.pieces schema) op.directives ++
        op.selections.pieces schema (rootFields schema op.type))))

/-- The ways to write an operation: a bare query may do without its keyword. -/
def forms (op : Operation) : List (List Piece) :=
  op.pieces schema ::
    if op.isBare then [op.selections.pieces schema (rootFields schema .query)] else []

def isWellFormed (op : Operation) : Bool :=
  whenPresent (fun defs => variablesWellFormed schema defs.value) op.declaredVars &&
    (whenPresent (Directives.isWellFormed schema) op.directives &&
      op.selections.isWellFormed schema (rootFields schema op.type))

def unlocated (op : Operation) : Operation :=
  ⟨op.type, op.name.map fun n => .unlocated n.value,
    op.declaredVars.map fun defs => .unlocated (defs.value.map VariableDef.unlocated),
    op.directives.map Directives.unlocated, Selection.unlocatedSet op.selections, .unlocated⟩

end Operation

namespace Fragment

variable (schema : Schema)

def pieces (f : Fragment) : List Piece :=
  .name (lit "fragment") :: .name f.name.value :: .name (lit "on") :: .name f.condition.value ::
    (piecesOf (Directives.pieces schema) f.directives ++
      f.selections.pieces schema (Parser.fieldsOf schema (schema.type? f.condition.value)))

def isWellFormed (f : Fragment) : Bool :=
  f.name.value != lit "on" && (whenPresent (Directives.isWellFormed schema) f.directives &&
    f.selections.isWellFormed schema (Parser.fieldsOf schema (schema.type? f.condition.value)))

def unlocated (f : Fragment) : Fragment :=
  ⟨.unlocated f.name.value, .unlocated f.condition.value, f.directives.map Directives.unlocated,
    Selection.unlocatedSet f.selections, .unlocated⟩

end Fragment

namespace Definition

variable (schema : Schema)

/-- The ways to write a definition. -/
def forms : Definition → List (List Piece)
  | operation op => op.forms schema
  | fragment f => [f.pieces schema]

def isWellFormed : Definition → Bool
  | operation op => op.isWellFormed schema
  | fragment f => f.isWellFormed schema

def unlocated : Definition → Definition
  | operation op => operation op.unlocated
  | fragment f => fragment f.unlocated

end Definition

namespace Document

variable (schema : Schema)

/-- A rendering of a document: one of each of its definitions, in order. -/
def Renders (doc : Document) (pieces : List Piece) : Prop :=
  ∃ parts, pieces = parts.flatten ∧ List.Forall₂ (fun part d => part ∈ d.forms schema) parts doc

def isWellFormed (doc : Document) : Bool := doc.all (Definition.isWellFormed schema)

def unlocated (doc : Document) : Document := doc.map Definition.unlocated

end Document

end GraphQL
