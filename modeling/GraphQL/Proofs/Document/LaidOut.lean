import GraphQL.Proofs.Document.Layout
import GraphQL.Proofs.Document.Selections

/-! The layouts of documents: a part for every span that a document stores. Without their brackets
they are the rendering of the document. -/

namespace GraphQL

namespace Layout

/-- A name with its span. -/
def word (n : Located Text) : Layout := .part n.span [name n.value]

end Layout

open Layout

/-- The layout of a reference to a type. -/
def TypeRef.layout (t : Located TypeRef) : Layout :=
  .part t.span (t.value.tokens.map fun token => .piece (.token token))

namespace InputValue

mutual

/-- The layouts of a value where a type may be expected. -/
def layouts (schema : Schema) (expected : Option TypeDef) : InputValue → List Layout
  | null => [.name (lit "null")]
  | scalar s => [.piece (.scalar expected s)]
  | enum name => [.name name]
  | var name => [.mark .dollar, .name name]
  | list items => between .bracketOpen .bracketClose (itemLayouts schema expected items)
  | object fields =>
    between .curlyOpen .curlyClose
      (entryLayouts schema (Parser.fieldType schema expected) fields)

def itemLayouts (schema : Schema) (expected : Option TypeDef) :
    List (Located InputValue) → List Layout
  | [] => []
  | ⟨v, span⟩ :: rest =>
    .part span (v.layouts schema expected) :: itemLayouts schema expected rest

def entryLayouts (schema : Schema) (expected : Text → Option TypeDef) :
    List (Located Text × Located InputValue) → List Layout
  | [] => []
  | (key, ⟨v, span⟩) :: rest =>
    word key :: .mark .colon :: .part span (v.layouts schema (expected key.value)) ::
      entryLayouts schema expected rest

end

/-- The layout of a value with its span. -/
def layout (schema : Schema) (expected : Option TypeDef) (v : Located InputValue) : Layout :=
  .part v.span (v.value.layouts schema expected)

end InputValue

namespace Arguments

variable (schema : Schema) (defs : List ArgumentDef)

def layout (args : Located Arguments) : Layout :=
  .part args.span (between .parenOpen .parenClose
    (InputValue.entryLayouts schema (argumentType schema defs) args.value))

end Arguments

/-- The layouts of arguments that may be left out. -/
def argumentLayouts (schema : Schema) (defs : List ArgumentDef) :
    Option (Located Arguments) → List Layout :=
  optional fun args => [Arguments.layout schema defs args]

namespace Directive

variable (schema : Schema)

def layout (d : Located Directive) : Layout :=
  .part d.span (.mark .at :: word d.value.name ::
    argumentLayouts schema (argumentDefs schema d.value.name.value) d.value.arguments)

end Directive

/-- The layouts of directives that may be left out. -/
def directiveLayouts (schema : Schema) : Option Directives → List Layout :=
  optional fun ds => ds.map (Directive.layout schema)

/-- What stands at the front of a field: its alias, if it has one, and its name. -/
def nameLayouts : Option (Located Text) × Located Text → List Layout
  | (none, n) => [word n]
  | (some a, n) => [word a, .mark .colon, word n]

namespace FieldHead

variable (schema : Schema) (fields : Parser.Fields)

def layouts (head : FieldHead) : List Layout :=
  nameLayouts (head.aliasName, head.name) ++
    (argumentLayouts schema (argumentDefs fields head.name.value) head.arguments ++
      directiveLayouts schema head.directives)

end FieldHead

namespace Selection

variable (schema : Schema)

mutual

/-- The layout of a selection where certain fields can be selected. -/
def layout (fields : Parser.Fields) : Selection → Layout
  | field head none => .part head.span (head.layouts schema fields)
  | field head (some below) =>
    .part head.span (head.layouts schema fields ++ between .curlyOpen .curlyClose
      (setLayouts (FieldHead.fieldsBelow schema fields head.name.value) below))
  | spread s =>
    .part s.span (.mark .ellipsis :: word s.name :: directiveLayouts schema s.directives)
  | inline head inside =>
    .part head.span (.mark .ellipsis ::
      (optional (fun c => [.name (lit "on"), word c]) head.condition ++
        (directiveLayouts schema head.directives ++ between .curlyOpen .curlyClose
          (setLayouts (InlineHead.fieldsInside schema fields head.condition) inside))))

def setLayouts (fields : Parser.Fields) : List Selection → List Layout
  | [] => []
  | s :: rest => s.layout fields :: setLayouts fields rest

end

end Selection

namespace SelectionSet

variable (schema : Schema) (fields : Parser.Fields)

/-- The layouts of selections between braces, of which no span is stored. -/
def layouts (selections : SelectionSet) : List Layout :=
  between .curlyOpen .curlyClose (Selection.setLayouts schema fields selections)

end SelectionSet

namespace VariableDef

variable (schema : Schema)

/-- The layouts of a variable. The span of its name begins at the dollar sign. -/
def layouts (d : VariableDef) : List Layout :=
  .part d.name.span [.mark .dollar, .name d.name.value] :: .mark .colon :: TypeRef.layout d.type ::
    (optional (fun v => [.mark .equals, InputValue.layout schema (schema.lookup? d.type.value) v])
      d.default ++ directiveLayouts schema d.directives)

end VariableDef

namespace Operation

variable (schema : Schema)

def variablesLayout (defs : Located (List VariableDef)) : Layout :=
  .part defs.span (between .parenOpen .parenClose
    (defs.value.flatMap (VariableDef.layouts schema)))

def layout (op : Operation) : Layout :=
  .part op.span (.name op.type.toText :: (optional (fun n => [word n]) op.name ++
    (optional (fun defs => [variablesLayout schema defs]) op.declaredVars ++
      (directiveLayouts schema op.directives ++
        op.selections.layouts schema (rootFields schema op.type)))))

/-- The layout of a query that is written as its selections alone. -/
def bareLayout (op : Operation) : Layout :=
  .part op.span (op.selections.layouts schema (rootFields schema .query))

/-- The ways to lay out an operation: a bare query may do without its keyword. -/
def layoutForms (op : Operation) : List Layout :=
  op.layout schema :: if op.isBare then [op.bareLayout schema] else []

end Operation

namespace Fragment

variable (schema : Schema)

def layout (f : Fragment) : Layout :=
  .part f.span (.name (lit "fragment") :: word f.name :: .name (lit "on") :: word f.condition ::
    (directiveLayouts schema f.directives ++
      f.selections.layouts schema (Parser.fieldsOf schema (schema.type? f.condition.value))))

end Fragment

namespace Definition

variable (schema : Schema)

/-- The ways to lay out a definition. -/
def layoutForms : Definition → List Layout
  | operation op => op.layoutForms schema
  | fragment f => [f.layout schema]

end Definition

namespace Document

/-- Layouts of a document: one of each of its definitions, in order. -/
def LaidOut (schema : Schema) (doc : Document) (ls : List Layout) : Prop :=
  List.Forall₂ (fun l d => l ∈ d.layoutForms schema) ls doc

end Document

/-! ### Without the brackets -/

section Pieces

variable {schema : Schema}

theorem allPieces_tokens (ts : List Token) :
    allPieces (ts.map fun t => .piece (.token t)) = ts.map .token := by
  induction ts with
  | nil => rfl
  | cons t ts ih => rw [List.map_cons, allPieces_cons, ih]; rfl

namespace InputValue

mutual

theorem allPieces_layouts (expected : Option TypeDef) : (v : InputValue) →
    allPieces (v.layouts schema expected) = v.pieces schema expected
  | null => rfl
  | scalar _ => rfl
  | enum _ => rfl
  | var _ => rfl
  | list items => by
    rw [layouts, pieces, allPieces_between, allPieces_itemLayouts expected items]
  | object fields => by
    rw [layouts, pieces, allPieces_between, allPieces_entryLayouts _ fields]

theorem allPieces_itemLayouts (expected : Option TypeDef) :
    (items : List (Located InputValue)) →
      allPieces (itemLayouts schema expected items) = itemPieces schema expected items
  | [] => rfl
  | ⟨v, _⟩ :: rest => by
    rw [itemLayouts, itemPieces, allPieces_cons, allPieces_itemLayouts expected rest,
      Layout.pieces, allPieces_layouts expected v]

theorem allPieces_entryLayouts (expected : Text → Option TypeDef) :
    (entries : List (Located Text × Located InputValue)) →
      allPieces (entryLayouts schema expected entries) = entryPieces schema expected entries
  | [] => rfl
  | (key, ⟨v, _⟩) :: rest => by
    have hv := allPieces_layouts (expected key.value) v
    have hrest := allPieces_entryLayouts expected rest
    rw [entryLayouts, entryPieces, allPieces_cons, allPieces_cons, allPieces_cons, hrest,
      Layout.pieces, hv]
    rfl

end

end InputValue

theorem allPieces_argumentLayouts (defs : List ArgumentDef) (args : Option (Located Arguments)) :
    allPieces (argumentLayouts schema defs args) =
      piecesOf (fun args => args.value.pieces schema defs) args := by
  rw [argumentLayouts, allPieces_optional]
  congr
  funext args
  simp only [Arguments.layout, Arguments.pieces, allPieces_cons, Layout.pieces, allPieces_between,
    InputValue.allPieces_entryLayouts, allPieces_nil, List.append_nil]

theorem Directive.pieces_layout (d : Located Directive) :
    (Directive.layout schema d).pieces = d.value.pieces schema := by
  simp only [Directive.layout, Directive.pieces, Layout.pieces, allPieces_cons,
    allPieces_argumentLayouts]
  rfl

theorem allPieces_directiveLayouts (ds : Option Directives) :
    allPieces (directiveLayouts schema ds) = piecesOf (Directives.pieces schema) ds := by
  rw [directiveLayouts, allPieces_optional]
  congr
  funext ds
  induction ds with
  | nil => rfl
  | cons d ds ih =>
    rw [List.map_cons, allPieces_cons, ih, Directive.pieces_layout]
    rfl

theorem FieldHead.allPieces_layouts (fields : Parser.Fields) (head : FieldHead) :
    allPieces (head.layouts schema fields) = head.pieces schema fields := by
  simp only [FieldHead.layouts, FieldHead.pieces, allPieces_append, allPieces_argumentLayouts,
    allPieces_directiveLayouts]
  cases head.aliasName <;> rfl

namespace Selection

mutual

theorem pieces_layout (fields : Parser.Fields) : (s : Selection) →
    (s.layout schema fields).pieces = s.pieces schema fields
  | field head none => by
    rw [layout, pieces, Layout.pieces, FieldHead.allPieces_layouts]
  | field head (some below) => by
    rw [layout, pieces, Layout.pieces, allPieces_append, FieldHead.allPieces_layouts,
      allPieces_between, allPieces_setLayouts _ below]
  | spread s => by
    simp only [layout, pieces, Spread.pieces, Layout.pieces, allPieces_cons,
      allPieces_directiveLayouts]
    rfl
  | inline head inside => by
    simp only [layout, pieces, InlineHead.pieces, Layout.pieces, allPieces_cons, allPieces_append,
      allPieces_directiveLayouts, allPieces_optional, allPieces_between,
      allPieces_setLayouts _ inside, List.cons_append, List.append_assoc]
    rfl

theorem allPieces_setLayouts (fields : Parser.Fields) : (selections : List Selection) →
    allPieces (setLayouts schema fields selections) = setPieces schema fields selections
  | [] => rfl
  | s :: rest => by
    rw [setLayouts, setPieces, allPieces_cons, pieces_layout fields s,
      allPieces_setLayouts fields rest]

end

end Selection

theorem SelectionSet.allPieces_layouts (fields : Parser.Fields) (selections : SelectionSet) :
    allPieces (selections.layouts schema fields) = selections.pieces schema fields := by
  rw [SelectionSet.layouts, SelectionSet.pieces, allPieces_between,
    Selection.allPieces_setLayouts]

theorem VariableDef.allPieces_layouts (d : VariableDef) :
    allPieces (d.layouts schema) = d.pieces schema := by
  simp only [VariableDef.layouts, VariableDef.pieces, allPieces_cons, allPieces_append,
    allPieces_optional, allPieces_directiveLayouts, TypeRef.layout, InputValue.layout,
    Layout.pieces, allPieces_tokens, InputValue.allPieces_layouts, allPieces_nil, List.append_nil]
  rfl

theorem Operation.pieces_layout (op : Operation) :
    (op.layout schema).pieces = op.pieces schema := by
  have hvars : ∀ defs : Located (List VariableDef),
      (variablesLayout schema defs).pieces = variablePieces schema defs.value := by
    intro defs
    simp only [variablesLayout, variablePieces, Layout.pieces, allPieces_between,
      allPieces_flatMap, VariableDef.allPieces_layouts]
  simp only [Operation.layout, Operation.pieces, Layout.pieces, allPieces_cons, allPieces_append,
    allPieces_optional, allPieces_directiveLayouts, SelectionSet.allPieces_layouts, hvars,
    allPieces_nil, List.append_nil]
  rfl

theorem Definition.pieces_mem_forms {d : Definition} {l : Layout}
    (h : l ∈ d.layoutForms schema) : l.pieces ∈ d.forms schema := by
  cases d with
  | operation op =>
    simp only [Definition.layoutForms, Operation.layoutForms] at h
    simp only [Definition.forms, Operation.forms]
    rcases List.mem_cons.mp h with rfl | h
    · rw [Operation.pieces_layout]
      exact List.mem_cons_self
    · split_ifs at h ⊢ with hbare
      · rw [List.mem_singleton.mp h, Operation.bareLayout, Layout.pieces,
          SelectionSet.allPieces_layouts]
        exact List.mem_cons_of_mem _ List.mem_cons_self
      · cases h
  | fragment f =>
    rw [List.mem_singleton.mp h]
    apply List.mem_singleton.mpr
    simp only [Fragment.layout, Fragment.pieces, Layout.pieces, allPieces_cons, allPieces_append,
      allPieces_directiveLayouts, SelectionSet.allPieces_layouts]
    rfl

/-- A layout of a document is a rendering of it, with brackets. -/
theorem Document.LaidOut.renders {doc : Document} {ls : List Layout}
    (h : doc.LaidOut schema ls) : doc.Renders schema (allPieces ls) := by
  refine ⟨ls.map Layout.pieces, ?_, ?_⟩
  · induction ls generalizing doc with
    | nil => rfl
    | cons l ls ih =>
      cases h with
      | cons _ hrest => rw [allPieces_cons, List.map_cons, List.flatten_cons, ih hrest]
  · apply List.forall₂_map_left_iff.mpr
    exact h.imp fun _ _ hl => Definition.pieces_mem_forms hl

end Pieces

end GraphQL
