import GraphQL.Proofs.Execution.Foresight

/-! Look-ahead told by the selections that it is made of: which field is shown where, and what is
known of its arguments, at all depths. -/

namespace GraphQL

namespace LookAhead

/-- A field that is seen ahead in selections on a type, as far as the type is known: one that is
selected there or in a fragment, under its name and alias. Its arguments are as asked of the field
and its declaration, and so are those of the fields below it. -/
inductive SeenIn (scope : Scope) (asked : FieldHead → Option FieldDef → FieldArguments → Prop) :
    Option TypeDef → SelectionSet → LookAhead → Prop where
  | field {parent : Option TypeDef} {xs : SelectionSet} {head : FieldHead}
      {body : Option SelectionSet} {l : LookAhead} (mem : .field head body ∈ xs)
      (included : Directives.exclude scope.vars (head.directives.getD []) = .ok false)
      (name : l.name = head.name.value) (aliasName : l.aliasName = head.aliasName.map (·.value))
      (arguments : asked head (parent.bind (·.field? head.name.value)) l.arguments)
      (children : ∀ child ∈ l.children, SeenIn scope asked
        (Visit.typeBelow scope.schema parent head.name.value) (body.getD []) child) :
      SeenIn scope asked parent xs l
  | spread {parent : Option TypeDef} {xs : SelectionSet} {sp : Spread} {f : Fragment}
      {l : LookAhead} (mem : .spread sp ∈ xs)
      (included : Directives.exclude scope.vars (sp.directives.getD []) = .ok false)
      (named : scope.requireFragment sp.name.value = .ok f)
      (inside : SeenIn scope asked (scope.schema.type? f.condition.value) f.selections l) :
      SeenIn scope asked parent xs l
  | inline {parent : Option TypeDef} {xs body : SelectionSet} {head : InlineHead} {l : LookAhead}
      (mem : .inline head body ∈ xs)
      (included : Directives.exclude scope.vars (head.directives.getD []) = .ok false)
      (inside : SeenIn scope asked (Visit.typeInside scope.schema parent head.condition) body l) :
      SeenIn scope asked parent xs l

variable {scope : Scope} {asked : FieldHead → Option FieldDef → FieldArguments → Prop}
  {expand : Expand}

theorem SeenIn.mono {parent : Option TypeDef} {xs ys : SelectionSet} {l : LookAhead}
    (h : l.SeenIn scope asked parent xs) (hsub : ∀ x ∈ xs, x ∈ ys) :
    l.SeenIn scope asked parent ys := by
  cases h with
  | field mem included name aliasName arguments children =>
    exact .field (hsub _ mem) included name aliasName arguments children
  | spread mem included named inside => exact .spread (hsub _ mem) included named inside
  | inline mem included inside => exact .inline (hsub _ mem) included inside

/-- Inside a fragment selections are made on the type of its condition, whether or not that
restricts them. -/
theorem Place.parent_inFragment (p : Place) (condition : Option TypeDef) :
    (p.inFragment condition).parent = condition := by
  cases condition with
  | none => rfl
  | some t =>
    unfold inFragment
    dsimp only
    split <;> rfl

mutual

theorem seenIn_enter (hasked : ∀ head declaration, asked head declaration
      (.ofField scope.vars head (declaration.bind FieldDef.arguments)))
    (hexpand : ∀ p f ls, expand p f = .ok ls →
      ∀ l ∈ ls, l.SeenIn scope asked p.parent f.selections) :
    ∀ (x : Selection) (p : Place) (ls : List LookAhead),
      Directives.exclude scope.vars (x.directives.getD []) = .ok false →
      enter scope expand p x = .ok ls → ∀ l ∈ ls, l.SeenIn scope asked p.parent [x]
  | .field head none, p, ls, hincluded, hls, l, hl => by
    obtain rfl := Except.ok.inj hls
    obtain rfl := List.mem_singleton.mp hl
    exact .field List.mem_cons_self hincluded rfl rfl (hasked head _) nofun
  | .field head (some body), p, ls, hincluded, hls, l, hl => by
    obtain ⟨children, hchildren, rfl⟩ := enter_field_eq_ok_iff.mp hls
    obtain rfl := List.mem_singleton.mp hl
    have hbody := seenIn_ofSelections hasked hexpand body _ children hchildren
    exact .field List.mem_cons_self hincluded rfl rfl (hasked head _) hbody
  | .spread sp, p, ls, hincluded, hls, l, hl => by
    obtain ⟨f, hfound, hinside⟩ := enter_spread_eq_ok_iff.mp hls
    have hseen := hexpand _ f ls hinside l hl
    rw [Place.parent_inFragment] at hseen
    exact .spread List.mem_cons_self hincluded hfound hseen
  | .inline ⟨none, _, _⟩ body, p, ls, hincluded, hls, l, hl =>
    .inline List.mem_cons_self hincluded (seenIn_ofSelections hasked hexpand body p ls hls l hl)
  | .inline ⟨some condition, _, _⟩ body, p, ls, hincluded, hls, l, hl => by
    let inner := p.inFragment (scope.schema.type? condition.value)
    have hseen := seenIn_ofSelections hasked hexpand body inner ls hls l hl
    rw [Place.parent_inFragment] at hseen
    exact .inline List.mem_cons_self hincluded hseen

theorem seenIn_ofSelections (hasked : ∀ head declaration, asked head declaration
      (.ofField scope.vars head (declaration.bind FieldDef.arguments)))
    (hexpand : ∀ p f ls, expand p f = .ok ls →
      ∀ l ∈ ls, l.SeenIn scope asked p.parent f.selections) :
    ∀ (xs : List Selection) (p : Place) (ls : List LookAhead),
      ofSelections scope expand p xs = .ok ls → ∀ l ∈ ls, l.SeenIn scope asked p.parent xs
  | [], p, ls, hls, l, hl => by
    obtain rfl := Except.ok.inj hls
    cases hl
  | x :: rest, p, ls, hls, l, hl => by
    obtain ⟨first, others, hfirst, hothers, rfl⟩ := exists_of_ofSelections_cons hls
    rcases List.mem_append.mp hl with hl | hl
    · have hx := seenIn_enter hasked hexpand x p first
      rw [ofSelection_eq] at hfirst
      cases hexclude : Directives.exclude scope.vars (x.directives.getD []) with
      | error v => exact nomatch hexclude ▸ hfirst
      | ok excluded =>
        rw [hexclude] at hfirst
        cases excluded with
        | true =>
          obtain rfl := Except.ok.inj hfirst
          cases hl
        | false => exact (hx hexclude hfirst l hl).mono (by simp)
    · have hrest := seenIn_ofSelections hasked hexpand rest p others hothers l hl
      exact hrest.mono fun y hy => List.mem_cons_of_mem _ hy

end

theorem seenIn_expandUpTo (hasked : ∀ head declaration, asked head declaration
      (.ofField scope.vars head (declaration.bind FieldDef.arguments))) (depth : Nat) :
    ∀ p f ls, expandUpTo scope depth p f = .ok ls →
      ∀ l ∈ ls, l.SeenIn scope asked p.parent f.selections := by
  induction depth with
  | zero => exact fun _ _ _ hls => nomatch hls
  | succ depth ih => exact fun p f ls hls => seenIn_ofSelections hasked ih f.selections p ls hls

end LookAhead

namespace Cursor

variable {c : Cursor} {l : LookAhead}

/-- What is seen ahead from a cursor below the field it stands at. -/
theorem seenIn_of_lookAhead {asked : FieldHead → Option FieldDef → FieldArguments → Prop}
    (hasked : ∀ head declaration, asked head declaration
      (.ofField c.scope.vars head (declaration.bind FieldDef.arguments)))
    (h : c.lookAhead = .ok l) : ∀ child ∈ l.children, child.SeenIn c.scope asked
      (some c.currentType.innermost) (c.selections.getD []) :=
  LookAhead.seenIn_ofSelections hasked (LookAhead.seenIn_expandUpTo hasked _) _ _ _
    (children_of_lookAhead h)

/-- Look-ahead begins with the field that the cursor stands at, as its declaration has it. -/
theorem eq_of_lookAhead (h : c.lookAhead = .ok l) : l = match c.field with
    | none => ⟨c.currentType.innermost.name, none, [], none, l.children⟩
    | some f => .ofField c.scope f.head (some f.declaration) none l.children := by
  unfold lookAhead at h
  cases hc : LookAhead.ofSelectionSet c.scope ⟨some c.currentType.innermost, none⟩
      (c.selections.getD []) with
  | error v => simp [hc, bind, Except.bind] at h
  | ok children =>
    simp only [hc, bind, Except.bind] at h
    cases hf : c.field with
    | none =>
      rw [hf] at h
      obtain rfl := Except.ok.inj h
      rfl
    | some f =>
      rw [hf] at h
      obtain rfl := Except.ok.inj h
      rfl

end Cursor

end GraphQL
