import GraphQL.Document.Parser
import GraphQL.Proofs.Parser.Blames

/-! What a document that does not parse is blamed on, with any schema at hand. -/

namespace GraphQL.Parser

variable {schema : Schema} {α : Type}

/-! ### References to types -/

theorem required_blames (t : Located TypeRef) : Blames schema (required t) := by
  refine (Blames.comes .exclamationMark).bind fun present => ?_
  cases present with
  | true => exact (Blames.mark _).bind fun _ => .pure _
  | false => exact .pure t

theorem typeRefUpTo_blames (fuel : Nat) : Blames schema (typeRefUpTo fuel) := by
  induction fuel with
  | zero => exact .unexpected
  | succ fuel ih =>
    refine (Blames.skip? _).bind fun opening => ?_
    cases opening with
    | some first => exact ih.bind fun _ => (Blames.mark _).bind fun _ => required_blames _
    | none => exact Blames.name.bind fun _ => required_blames _

theorem typeRef_blames : Blames schema typeRef := .fueled typeRefUpTo_blames

/-! ### Literals -/

/-- A scalar that comes next is taken, and blamed if it is refused. -/
theorem scalarLiteral_blamed (expected : Option TypeDef) {l : Literal} {s : Tokens}
    (hl : s.front.value = .scalar l) : Blamed schema s (scalarLiteral schema expected l s) := by
  obtain ⟨pending, stop⟩ := s
  cases pending with
  | nil => exact .ended
  | cons t rest =>
    have hnext : next ⟨t :: rest, stop⟩ = .ok t ⟨rest, stop⟩ := rfl
    rw [scalarLiteral, bind_of_ok hnext]
    cases hread : schema.readScalar (expected.bind TypeDef.scalar?) l with
    | ok value => exact .ok (List.suffix_cons t rest)
    | error error =>
      exact .literal List.mem_cons_self hl (Schema.inferScalar_of_readScalar hread)

theorem variableRef_blames : Blames schema variableRef :=
  (Blames.mark _).bind fun _ => Blames.name.bind fun _ => .pure _

theorem entry_blames {value : Text → Parser (Located InputValue)}
    (h : ∀ key, Blames schema (value key)) : Blames schema (entry value) :=
  Blames.name.bind fun key => (Blames.mark _).bind fun _ => (h key.value).bind fun _ => .pure _

theorem literalUpTo_blames (isConst : Bool) (fuel : Nat) :
    ∀ expected, Blames schema (literalUpTo schema isConst fuel expected) := by
  induction fuel with
  | zero => exact fun _ => .unexpected
  | succ fuel ih =>
    refine fun expected => .peek fun s => ?_
    cases hfront : s.front.value with
    | mark p =>
      cases p
      case bracketOpen => exact (Blames.fueled (ih expected).delimited).bind (fun _ => .pure _) s
      case curlyOpen =>
        dsimp only
        split
        · exact (Blames.fueled (entry_blames fun _ => ih _).delimited).bind (fun _ => .pure _) s
        · exact Blames.unexpected s
      case dollar =>
        dsimp only
        split
        · exact Blames.unexpected s
        · exact variableRef_blames s
      all_goals exact Blames.unexpected s
    | scalar l => exact scalarLiteral_blamed expected hfront
    | name text => exact Blames.next.bind (fun _ => .pure _) s
    | endOfFile => exact Blames.unexpected s

theorem literal_blames (isConst : Bool) (expected : Option TypeDef) :
    Blames schema (literal schema isConst expected) :=
  .fueled fun fuel => literalUpTo_blames isConst fuel expected

/-! ### Arguments and directives -/

theorem ifComes_blames {p : Parser α} (h : Blames schema p) (mark : Punctuator) :
    Blames schema (ifComes mark p) := by
  refine (Blames.comes mark).bind fun present => ?_
  cases present with
  | true => exact h.map some
  | false => exact .pure none

theorem arguments?_blames (defs : List ArgumentDef) : Blames schema (arguments? schema defs) :=
  ifComes_blames (.fueled (entry_blames fun _ => literal_blames _ _).delimitedSome) _

theorem directive_blames : Blames schema (directive schema) :=
  (Blames.mark _).bind fun _ => Blames.name.bind fun _ =>
    (arguments?_blames _).bind fun _ => .pure _

theorem directivesUpTo_blames (fuel : Nat) : Blames schema (directivesUpTo schema fuel) := by
  induction fuel with
  | zero => exact .pure []
  | succ fuel ih =>
    refine (Blames.comes .at).bind fun present => ?_
    cases present with
    | true => exact directive_blames.bind fun _ => ih.bind fun _ => .pure _
    | false => exact .pure []

theorem directives?_blames : Blames schema (directives? schema) :=
  ifComes_blames (.fueled directivesUpTo_blames) _

/-! ### Selections -/

theorem findFields_blames (t : Option TypeDef) : Blames schema (findFields schema t) := by
  rcases findFields_eq_or schema t with hfound | ⟨hnone, hcircle⟩
  · rw [hfound]
    exact .pure _
  · rw [hnone]
    exact fun _ => .endless hcircle

section Selections

variable {selection : Fields → Parser Selection}
  (hselection : ∀ fields, Blames schema (selection fields))

include hselection

theorem selectionSet_blames (fields : Fields) : Blames schema (selectionSet selection fields) :=
  .fueled (hselection fields).delimitedSome

theorem inlineFragment_blames (start : Position) (condition : Option (Located Text))
    {fields : Parser Fields} (hfields : Blames schema fields) :
    Blames schema (inlineFragment schema selection start condition fields) :=
  directives?_blames.bind fun _ => hfields.bind fun _ =>
    (selectionSet_blames hselection _).bind fun _ => .pure _

theorem fragmentSelection_blames (fields : Fields) :
    Blames schema (fragmentSelection schema selection fields) := by
  refine (Blames.mark .ellipsis).bind fun first => .peek_bind fun t => ?_
  cases t.value with
  | name text =>
    dsimp only
    split
    · exact Blames.next.bind fun _ => Blames.name.bind fun _ =>
        inlineFragment_blames hselection _ _ (findFields_blames _)
    · exact Blames.name.bind fun _ => directives?_blames.bind fun _ => .pure _
  | mark p =>
    cases p
    case curlyOpen => exact inlineFragment_blames hselection _ _ (.pure fields)
    case «at» => exact inlineFragment_blames hselection _ _ (.pure fields)
    all_goals exact .unexpected
  | scalar l => exact .unexpected
  | endOfFile => exact .unexpected

theorem fieldSelection_blames (fields : Fields) :
    Blames schema (fieldSelection schema selection fields) := by
  have hname : Blames schema fieldName := by
    refine Blames.name.bind fun _ => (Blames.skip? _).bind fun colon => ?_
    cases colon with
    | some colon => exact Blames.name.bind fun _ => .pure _
    | none => exact .pure _
  exact hname.bind fun _ => (arguments?_blames _).bind fun _ => directives?_blames.bind fun _ =>
    (findFields_blames _).bind fun _ =>
      (ifComes_blames (selectionSet_blames hselection _) _).bind fun _ => .pure _

end Selections

theorem selectionUpTo_blames (fuel : Nat) :
    ∀ fields, Blames schema (selectionUpTo schema fuel fields) := by
  induction fuel with
  | zero => exact fun _ => .unexpected
  | succ fuel ih =>
    refine fun fields => (Blames.comes .ellipsis).bind fun present => ?_
    cases present with
    | true => exact fragmentSelection_blames ih fields
    | false => exact fieldSelection_blames ih fields

theorem selections_blames (fields : Fields) : Blames schema (selections schema fields) :=
  .fueled fun fuel => selectionSet_blames (selectionUpTo_blames fuel) fields

/-! ### Definitions -/

theorem default?_blames (t : TypeRef) : Blames schema (default? schema t) := by
  refine (Blames.skip? _).bind fun sign => ?_
  cases sign with
  | some sign => exact (literal_blames _ _).map some
  | none => exact .pure none

theorem variableDef_blames : Blames schema (variableDef schema) :=
  (Blames.mark _).bind fun _ => Blames.name.bind fun _ => (Blames.mark _).bind fun _ =>
    typeRef_blames.bind fun _ => (default?_blames _).bind fun _ =>
      directives?_blames.bind fun _ => .pure _

theorem variableDefs?_blames : Blames schema (variableDefs? schema) :=
  ifComes_blames (.fueled variableDef_blames.delimitedSome) _

theorem keyword_blames (text : Text) : Blames schema (keyword text) := by
  have hcomes : Blames schema (comesName text) := .peek_bind fun _ => .pure _
  refine hcomes.bind fun present => ?_
  cases present with
  | true => exact .next
  | false => exact .unexpected

theorem name?_blames : Blames schema name? := by
  refine .peek_bind fun t => ?_
  split
  · exact Blames.name.map some
  · exact .pure none

theorem shorthand_blames : Blames schema (shorthand schema) :=
  (findFields_blames _).bind fun _ => (selections_blames _).bind fun _ => .pure _

theorem operation_blames (type : OperationType) : Blames schema (operation schema type) :=
  (keyword_blames _).bind fun _ => name?_blames.bind fun _ => variableDefs?_blames.bind fun _ =>
    directives?_blames.bind fun _ => (findFields_blames _).bind fun _ =>
      (selections_blames _).bind fun _ => .pure _

theorem fragmentDef_blames : Blames schema (fragmentDef schema) :=
  (keyword_blames _).bind fun _ => .name_bind fun _ => (keyword_blames _).bind fun _ =>
    Blames.name.bind fun _ => directives?_blames.bind fun _ => (findFields_blames _).bind fun _ =>
      (selections_blames _).bind fun _ => .pure _

theorem definition_blames : Blames schema (definition schema) := by
  refine .peek_bind fun t => ?_
  cases t.value with
  | mark p =>
    cases p
    case curlyOpen => exact shorthand_blames.map _
    all_goals exact .unexpected
  | name text =>
    dsimp only
    split_ifs
    · exact (operation_blames .query).map _
    · exact (operation_blames .mutation).map _
    · exact (operation_blames .subscription).map _
    · exact fragmentDef_blames.map _
    · exact .unexpected
  | scalar l => exact .unexpected
  | endOfFile => exact .unexpected

theorem definitionsUpTo_blames (fuel : Nat) : Blames schema (definitionsUpTo schema fuel) := by
  induction fuel with
  | zero => exact .pure []
  | succ fuel ih =>
    refine definition_blames.bind fun d => .peek_bind fun t => ?_
    split
    · exact .pure [d]
    · exact ih.bind fun _ => .pure _

theorem document_blames : Blames schema (document schema) := .fueled definitionsUpTo_blames

end GraphQL.Parser
