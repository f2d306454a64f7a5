import GraphQL.Execution.LookAhead
import GraphQL.Proofs.Execution.Plans
import GraphQL.Proofs.Schema.Subtypes
import GraphQL.Proofs.Validation.Checked

/-! The selections of a valid document find every field, fragment and type that they need. Validation
knows the type a selection is made on, execution the object it is resolved on; the object stands for
the type all the way down, whether selections are planned, looked ahead at, or collected for the
streams of a subscription. -/

namespace GraphQL

/-- `true` for the violations that a valid document rules out. -/
def Violation.isTypeFault : Violation → Bool
  | fieldNotFound _ _ => true
  | fragmentNotFound _ => true
  | typeNotFound _ => true
  | _ => false

abbrev Violation.IsOther (v : Violation) : Prop := v.isTypeFault = false

section Cursors

/-- A schema that fits together, with fragments that are as the rules ask. -/
structure Scope.Sound (scope : Scope) : Prop where
  named : scope.schema.WellNamed
  coherent : scope.schema.Coherent
  conditions : ∀ f ∈ scope.fragments, (scope.schema.type? f.condition.value).isSome
  fragments : ∀ f ∈ scope.fragments,
    SelectionSet.Checked scope.schema scope.fragments (scope.schema.type? f.condition.value)
      f.selections

/-- What is selected at a cursor is as the rules ask on a type. -/
structure Cursor.Suits (scope : Scope) (c : Cursor) (bound : Text) : Prop where
  inScope : c.scope = scope
  known : (scope.schema.type? bound).isSome
  selections : ∀ xs, c.selections = some xs →
    SelectionSet.Checked scope.schema scope.fragments (scope.schema.type? bound) xs

theorem Cursor.Suits.atIndex {scope : Scope} {c : Cursor} {bound : Text} (h : c.Suits scope bound)
    (i : Nat) : (c.atIndex i).Suits scope bound :=
  ⟨h.inScope, h.known, h.selections⟩

theorem Directive.errs_excludes (vars : Variables) (d : Directive) :
    Errs Violation.IsOther (d.excludes vars) := by
  have hcond : Errs Violation.IsOther (d.condition vars) := by
    unfold Directive.condition
    split
    · exact .ok _
    · exact .error rfl
  unfold Directive.excludes
  split
  · exact hcond
  · split
    · exact .map _ hcond
    · exact .ok _

theorem Directives.errs_exclude (vars : Variables) (ds : Directives) :
    Errs Violation.IsOther (Directives.exclude vars ds) := by
  induction ds with
  | nil => exact .ok _
  | cons d rest ih =>
    refine .bind (d.value.errs_excludes vars) fun excluded _ => ?_
    cases excluded with
    | true => exact .ok _
    | false => exact ih

end Cursors

section Entering

variable {scope : Scope} {o : Text}

theorem Scope.errs_spreadOn (hs : scope.Sound) (ho : (scope.schema.type? o).isSome) {sp : Spread}
    (hsp : ∃ f ∈ scope.fragments, f.name.value = sp.name.value) :
    Errs Violation.IsOther (scope.spreadOn o sp) := by
  obtain ⟨f, hf, hreq⟩ := Scope.exists_requireFragment hsp
  obtain ⟨applies, hm⟩ := Schema.meetsCondition_of_known (hs.conditions f hf) ho
  refine .bind (Directives.errs_exclude _ _) fun excluded _ => ?_
  cases excluded with
  | true => exact .ok _
  | false =>
    simp only [hreq, hm, bind, Except.bind, Bool.false_eq_true, if_false]
    cases applies <;> exact .ok _

theorem Scope.stands_of_spreadOn {sp : Spread} {f : Fragment}
    (h : scope.spreadOn o sp = .ok (some f)) :
    f ∈ scope.fragments ∧ scope.schema.isNamedSubtype o f.condition.value = true := by
  obtain ⟨-, found, hm⟩ := Scope.spreadOn_iff.mp h
  exact ⟨Scope.mem_of_requireFragment found, Schema.isNamedSubtype_of_meetsCondition hm⟩

theorem Scope.errs_entersInline (ho : (scope.schema.type? o).isSome) {head : InlineHead}
    (hknown : ∀ condition, head.condition = some condition →
      (scope.schema.type? condition.value).isSome) :
    Errs Violation.IsOther (scope.entersInline o head) := by
  refine .bind (Directives.errs_exclude _ _) fun excluded _ => ?_
  cases excluded with
  | true => exact .ok _
  | false =>
    cases hc : head.condition with
    | none => exact .ok _
    | some condition =>
      obtain ⟨applies, hm⟩ := Schema.meetsCondition_of_known (hknown condition hc) ho
      simpa [hm] using .ok applies

/-- What an inline fragment holds is selected where its condition stands for the object. -/
theorem Scope.stands_of_entersInline {head : InlineHead} (h : scope.entersInline o head = .ok true)
    {condition : Located Text} (hc : head.condition = some condition) :
    scope.schema.isNamedSubtype o condition.value = true :=
  Schema.isNamedSubtype_of_meetsCondition
    ((Scope.entersInline_iff.mp h).2 condition.value (by rw [hc]; rfl))

end Entering

namespace LookAhead

variable {scope : Scope} {expand : Expand}

mutual

theorem errs_ofSelection
    (hexpand : ∀ p, ∀ f ∈ scope.fragments, Errs Violation.IsOther (expand p f)) :
    ∀ (x : Selection) (p : Place),
      (∀ sp ∈ x.spreads, ∃ f ∈ scope.fragments, f.name.value = sp.name.value) →
      Errs Violation.IsOther (ofSelection scope expand p x)
  | .field head none, p, _ => by
    refine .bind (Directives.errs_exclude _ _) fun excluded _ => ?_
    cases excluded <;> exact .ok _
  | .field head (some body), p, h => by
    refine .bind (Directives.errs_exclude _ _) fun excluded _ => ?_
    cases excluded with
    | true => exact .ok _
    | false => exact .bind (errs_ofSelections hexpand body _ h) fun _ _ => .ok _
  | .spread sp, p, h => by
    refine .bind (Directives.errs_exclude _ _) fun excluded _ => ?_
    cases excluded with
    | true => exact .ok _
    | false =>
      obtain ⟨f, hf, hreq⟩ := Scope.exists_requireFragment (h sp (by simp [Selection.spreads]))
      refine .bind (fun v hv => ?_) fun g hg => ?_
      · rw [hreq] at hv
        cases hv
      · rw [hreq] at hg
        exact Except.ok.inj hg ▸ hexpand _ f hf
  | .inline head body, p, h => by
    refine .bind (Directives.errs_exclude _ _) fun excluded _ => ?_
    cases excluded with
    | true => exact .ok _
    | false =>
      cases hc : head.condition with
      | none => simpa [hc] using errs_ofSelections hexpand body p h
      | some condition => simpa [hc] using errs_ofSelections hexpand body _ h

theorem errs_ofSelections
    (hexpand : ∀ p, ∀ f ∈ scope.fragments, Errs Violation.IsOther (expand p f)) :
    ∀ (xs : List Selection) (p : Place),
      (∀ sp ∈ Selection.spreadsOf xs, ∃ f ∈ scope.fragments, f.name.value = sp.name.value) →
      Errs Violation.IsOther (ofSelections scope expand p xs)
  | [], _, _ => .ok _
  | x :: rest, p, h =>
    .bind (errs_ofSelection hexpand x p fun sp hsp => h sp (List.mem_append_left _ hsp))
      fun _ _ => .bind
        (errs_ofSelections hexpand rest p fun sp hsp => h sp (List.mem_append_right _ hsp))
        fun _ _ => .ok _

end

theorem errs_expandUpTo (hs : scope.Sound) (depth : Nat) :
    ∀ p, ∀ f ∈ scope.fragments, Errs Violation.IsOther (expandUpTo scope depth p f) := by
  induction depth with
  | zero => exact fun _ _ _ => .error rfl
  | succ depth ih => exact fun p f hf => errs_ofSelections ih _ p (hs.fragments f hf).spreads

end LookAhead

theorem Cursor.errs_lookAhead {scope : Scope} (hs : scope.Sound) {c : Cursor} {bound : Text}
    (hc : c.Suits scope bound) : Errs Violation.IsOther c.lookAhead := by
  have hspreads : ∀ sp ∈ Selection.spreadsOf (c.selections.getD []),
      ∃ f ∈ c.scope.fragments, f.name.value = sp.name.value := by
    cases hsel : c.selections with
    | none => simp [Selection.spreadsOf]
    | some xs =>
      rw [hc.inScope]
      exact (hc.selections xs hsel).spreads
  refine .bind (LookAhead.errs_ofSelections (LookAhead.errs_expandUpTo ?_ _) _ _ hspreads)
    fun children _ => ?_
  · exact hc.inScope ▸ hs
  · split <;> exact .ok _

section Fields

variable {scope : Scope} {d : ObjectDef} {o : Text}

/-- A field of an object as it is resolved: declared by the object, with what is selected below it as
the rules ask on a type that its own type stands for. -/
def Cursor.IsBelow (scope : Scope) (d : ObjectDef) (name : Text) (c : Cursor) : Prop :=
  ∃ f bound, (TypeDef.object d).field? name = some f ∧
    scope.schema.isNamedSubtype f.type.innermostName bound = true ∧ c.Suits scope bound

/-- An object declares what is selected on a type that it stands for. -/
theorem exists_field (hs : scope.Sound) (ho : scope.schema.type? o = some (.object d))
    {bound : Text} (hb : scope.schema.isNamedSubtype o bound = true)
    (hk : (scope.schema.type? bound).isSome) {head : FieldHead} {body : Option SelectionSet}
    {rest : SelectionSet}
    (h : SelectionSet.Checked scope.schema scope.fragments (scope.schema.type? bound)
      (.field head body :: rest))
    (hn : head.name.value ≠ lit "__typename") :
    ∃ f, (TypeDef.object d).field? head.name.value = some f ∧
      ∀ c : Cursor, c.scope = scope → ∃ below, c.atField ⟨head, f⟩ body = .ok below ∧
        below.IsBelow scope d head.name.value := by
  obtain ⟨t, ht⟩ := Option.isSome_iff_exists.mp hk
  rw [ht] at h
  obtain ⟨f, g, hf, hg, hsub⟩ :=
    Schema.field_of_supertype hs.named hs.coherent ho ht hb h.hasField hn
  have known (p : Text) (t : TypeDef) (hp : scope.schema.type? p = some t) (f : FieldDef)
      (hf : t.field? head.name.value = some f) :
      (scope.schema.type? f.type.innermostName).isSome :=
    hs.coherent.known p t f hp (List.mem_of_find?_eq_some hf)
  refine ⟨g, hg, fun c hc => ?_⟩
  obtain ⟨place, hplace⟩ := Schema.position_of_known (known o _ ho g hg)
  refine ⟨⟨scope, body, place, c.path.field head.responseName head.span.start, some ⟨head, g⟩, false⟩,
    by simp only [Cursor.atField, hc, hplace, bind, Except.bind, pure, Except.pure],
    g, f.type.innermostName, hg, hsub, rfl, known bound t ht f hf, fun xs hxs => ?_⟩
  obtain rfl : body = some xs := hxs
  simpa [Visit.typeBelow, hf, Schema.lookup?] using h.body

end Fields

namespace Plan

variable {scope : Scope} {d : ObjectDef} {o : Text} {expand : Expand}

/-- A plan on an object asks only for fields that the object declares, and changes its type only to
types that suit what is selected there. -/
def IsSound (scope : Scope) (d : ObjectDef) : Plan → Prop :=
  All (fun t => t.cursor.IsBelow scope d t.name) (fun n => n.cursor.Suits scope n.condition)
    Violation.IsOther

mutual

theorem isSound_ofSelection (hs : scope.Sound) (ho : scope.schema.type? o = some (.object d))
    (hexpand : ∀ c, ∀ f ∈ scope.fragments, c.scope = scope →
      scope.schema.isNamedSubtype o f.condition.value = true → (expand c f).IsSound scope d) :
    ∀ (x : Selection) (rest : SelectionSet) (c : Cursor) (bound : Text), c.scope = scope →
      (scope.schema.type? bound).isSome → scope.schema.isNamedSubtype o bound = true →
      SelectionSet.Checked scope.schema scope.fragments (scope.schema.type? bound) (x :: rest) →
      match ofSelection ⟨.object d, o⟩ expand c x with
      | .error v => v.IsOther
      | .ok none => True
      | .ok (some s) => s.All (fun t => t.cursor.IsBelow scope d t.name)
          (fun n => n.cursor.Suits scope n.condition) Violation.IsOther
  | .field head body, rest, c, bound, hc, hk, hb, h => by
    unfold ofSelection
    cases hx : Directives.exclude c.scope.vars (head.directives.getD []) with
    | error v => exact Directives.errs_exclude _ _ v hx
    | ok excluded =>
      cases excluded with
      | true => trivial
      | false =>
        by_cases hn : head.name.value = lit "__typename"
        · simp [ofField, hn, bind, Except.bind, pure, Except.pure, Step.All]
        · obtain ⟨f, hf, hbelow⟩ := exists_field hs ho hb hk h hn
          obtain ⟨below, hat, hok⟩ := hbelow c hc
          simpa [ofField, hn, hf, hat, bind, Except.bind, pure, Except.pure, Step.All] using hok
  | .spread sp, rest, c, bound, hc, hk, hb, h => by
    have herrs := Scope.errs_spreadOn hs (o := o) (by simp [ho]) h.spread
    rw [ofSelection_spread, hc]
    cases hx : scope.spreadOn o sp with
    | error v => exact herrs v hx
    | ok put =>
      cases put with
      | none => trivial
      | some f =>
        obtain ⟨hf, hsub⟩ := Scope.stands_of_spreadOn hx
        exact hexpand c f hf hc hsub
  | .inline head body, rest, c, bound, hc, hk, hb, h => by
    have herrs := Scope.errs_entersInline (o := o) (by simp [ho]) fun _ => h.condition
    rw [ofSelection_inline, hc]
    cases hx : scope.entersInline o head with
    | error v => exact herrs v hx
    | ok entered =>
      cases entered with
      | false => trivial
      | true =>
        have hinner := h.inside
        simp only [Except.map, if_true]
        unfold Step.ofInline
        cases hcond : head.condition with
        | none =>
          rw [hcond] at hinner
          exact isSound_ofSelections hs ho hexpand body (c.atInline none body) bound hc hk hb hinner
        | some condition =>
          rw [hcond] at hinner
          have hknown := h.condition hcond
          have hsuits : (c.atInline (some condition) body).Suits scope condition.value :=
            ⟨hc, hknown, fun xs hxs => Option.some.inj hxs ▸ hinner⟩
          exact ⟨hsuits, isSound_ofSelections hs ho hexpand body (c.atInline (some condition) body)
            condition.value hc hknown (Scope.stands_of_entersInline hx hcond) hinner⟩

theorem isSound_ofSelections (hs : scope.Sound) (ho : scope.schema.type? o = some (.object d))
    (hexpand : ∀ c, ∀ f ∈ scope.fragments, c.scope = scope →
      scope.schema.isNamedSubtype o f.condition.value = true → (expand c f).IsSound scope d) :
    ∀ (xs : List Selection) (c : Cursor) (bound : Text), c.scope = scope →
      (scope.schema.type? bound).isSome → scope.schema.isNamedSubtype o bound = true →
      SelectionSet.Checked scope.schema scope.fragments (scope.schema.type? bound) xs →
      (ofSelections ⟨.object d, o⟩ expand c xs).IsSound scope d
  | [], _, _, _, _, _, _ => trivial
  | x :: rest, c, bound, hc, hk, hb, h => by
    have hx := isSound_ofSelection hs ho hexpand x rest c bound hc hk hb h
    have hrest := isSound_ofSelections hs ho hexpand rest c bound hc hk hb h.tail
    unfold ofSelections
    rcases hsel : ofSelection ⟨.object d, o⟩ expand c x with v | _ | s
    · rw [hsel] at hx
      exact hx
    · exact hrest
    · rw [hsel] at hx
      exact ⟨hx, hrest⟩

end

theorem isSound_expandUpTo (hs : scope.Sound) (ho : scope.schema.type? o = some (.object d))
    (depth : Nat) :
    ∀ c, ∀ f ∈ scope.fragments, c.scope = scope →
      scope.schema.isNamedSubtype o f.condition.value = true →
      (expandUpTo ⟨.object d, o⟩ depth c f).IsSound scope d := by
  induction depth with
  | zero => exact fun _ _ _ _ _ => rfl
  | succ depth ih =>
    exact fun c f hf hc hsub =>
      isSound_ofSelections hs ho ih f.selections c _ hc (hs.conditions f hf) hsub
        (hs.fragments f hf)

end Plan

section Collecting

variable {scope : Scope} {d : ObjectDef} {o : Text}

/-- A field of a subscription root tells the root's type or is declared by the root. -/
def RootField.IsSound (scope : Scope) (d : ObjectDef) (f : RootField) : Prop :=
  f.head.name.value = lit "__typename" ∨
    ∃ declaration, (TypeDef.object d).field? f.head.name.value = some declaration ∧
      ∀ c : Cursor, c.scope = scope → ∃ below,
        c.atField ⟨f.head, declaration⟩ f.selections = .ok below ∧
          below.IsBelow scope d f.head.name.value

namespace RootField

/-- Collecting ends in sound fields, and never over a fragment or type that is not there. -/
def Collects (scope : Scope) (d : ObjectDef) (x : Except Violation (List RootField)) : Prop :=
  Errs Violation.IsOther x ∧ ∀ fields, x = .ok fields → ∀ f ∈ fields, f.IsSound scope d

theorem ofSelection_spread {expand : Expand} (sp : Spread) :
    ofSelection scope o expand (.spread sp) =
      (scope.spreadOn o sp).bind fun put => (put.map expand).getD (.ok []) := by
  unfold ofSelection Scope.spreadOn
  simp only [bind, Except.bind, pure, Except.pure]
  rcases Directives.exclude scope.vars (sp.directives.getD []) with v | _ | _
  · rfl
  · cases scope.requireFragment sp.name.value with
    | error v => rfl
    | ok f => rcases hm : scope.schema.meetsCondition f.condition.value o with _ | _ | _ <;> simp [hm]
  · rfl

theorem ofSelection_inline {expand : Expand} (head : InlineHead) (body : SelectionSet) :
    ofSelection scope o expand (.inline head body) =
      (scope.entersInline o head).bind fun entered =>
        if entered then ofSelections scope o expand body else .ok [] := by
  unfold ofSelection Scope.entersInline
  simp only [bind, Except.bind, pure, Except.pure]
  rcases Directives.exclude scope.vars (head.directives.getD []) with v | _ | _
  · rfl
  · cases head.condition with
    | none => rfl
    | some condition =>
      rcases hm : scope.schema.meetsCondition condition.value o with _ | _ | _ <;> simp [hm]
  · rfl

theorem Collects.ok {fields : List RootField} (h : ∀ f ∈ fields, f.IsSound scope d) :
    Collects scope d (.ok fields) :=
  ⟨.ok _, fun _ he => Except.ok.inj he ▸ h⟩

theorem Collects.error {v : Violation} (h : v.IsOther) : Collects scope d (.error v) :=
  ⟨.error h, fun _ he => nomatch he⟩

mutual

theorem collects_ofSelection {expand : Expand} (hs : scope.Sound)
    (ho : scope.schema.type? o = some (.object d))
    (hexpand : ∀ f ∈ scope.fragments, scope.schema.isNamedSubtype o f.condition.value = true →
      Collects scope d (expand f)) :
    ∀ (x : Selection) (rest : SelectionSet) (bound : Text), (scope.schema.type? bound).isSome →
      scope.schema.isNamedSubtype o bound = true →
      SelectionSet.Checked scope.schema scope.fragments (scope.schema.type? bound) (x :: rest) →
      Collects scope d (ofSelection scope o expand x)
  | .field head body, rest, bound, hk, hb, h => by
    unfold ofSelection
    cases hx : Directives.exclude scope.vars (head.directives.getD []) with
    | error v => exact .error (Directives.errs_exclude _ _ v hx)
    | ok excluded =>
      cases excluded with
      | true => exact .ok (by simp)
      | false =>
        refine .ok fun f hf => ?_
        obtain rfl : f = ⟨head, body⟩ := by simpa using hf
        by_cases hn : head.name.value = lit "__typename"
        · exact .inl hn
        · exact .inr (exists_field hs ho hb hk h hn)
  | .spread sp, rest, bound, hk, hb, h => by
    have herrs := Scope.errs_spreadOn hs (o := o) (by simp [ho]) h.spread
    rw [ofSelection_spread]
    cases hx : scope.spreadOn o sp with
    | error v => exact .error (herrs v hx)
    | ok put =>
      cases put with
      | none => exact .ok (by simp)
      | some f =>
        obtain ⟨hf, hsub⟩ := Scope.stands_of_spreadOn hx
        exact hexpand f hf hsub
  | .inline head body, rest, bound, hk, hb, h => by
    have herrs := Scope.errs_entersInline (o := o) (by simp [ho]) fun _ => h.condition
    rw [ofSelection_inline]
    cases hx : scope.entersInline o head with
    | error v => exact .error (herrs v hx)
    | ok entered =>
      cases entered with
      | false => exact .ok (by simp)
      | true =>
        have hinner := h.inside
        cases hcond : head.condition with
        | none =>
          rw [hcond] at hinner
          exact collects_ofSelections hs ho hexpand body bound hk hb hinner
        | some condition =>
          rw [hcond] at hinner
          exact collects_ofSelections hs ho hexpand body condition.value (h.condition hcond)
            (Scope.stands_of_entersInline hx hcond) hinner

theorem collects_ofSelections {expand : Expand} (hs : scope.Sound)
    (ho : scope.schema.type? o = some (.object d))
    (hexpand : ∀ f ∈ scope.fragments, scope.schema.isNamedSubtype o f.condition.value = true →
      Collects scope d (expand f)) :
    ∀ (xs : List Selection) (bound : Text), (scope.schema.type? bound).isSome →
      scope.schema.isNamedSubtype o bound = true →
      SelectionSet.Checked scope.schema scope.fragments (scope.schema.type? bound) xs →
      Collects scope d (ofSelections scope o expand xs)
  | [], _, _, _, _ => .ok (by simp)
  | x :: rest, bound, hk, hb, h => by
    obtain ⟨hxe, hxo⟩ := collects_ofSelection hs ho hexpand x rest bound hk hb h
    obtain ⟨hre, hro⟩ := collects_ofSelections hs ho hexpand rest bound hk hb h.tail
    unfold ofSelections
    cases hx : ofSelection scope o expand x with
    | error v => exact .error (hxe v hx)
    | ok fields =>
      cases hr : ofSelections scope o expand rest with
      | error v => exact .error (hre v hr)
      | ok others =>
        refine .ok fun f hf => ?_
        rcases List.mem_append.mp hf with hf | hf
        · exact hxo fields hx f hf
        · exact hro others hr f hf

end

theorem collects_expandUpTo (hs : scope.Sound) (ho : scope.schema.type? o = some (.object d))
    (depth : Nat) :
    ∀ f ∈ scope.fragments, scope.schema.isNamedSubtype o f.condition.value = true →
      Collects scope d (expandUpTo scope o depth f) := by
  induction depth with
  | zero => exact fun _ _ _ => .error rfl
  | succ depth ih =>
    exact fun f hf hsub =>
      collects_ofSelections hs ho ih f.selections _ (hs.conditions f hf) hsub (hs.fragments f hf)

end RootField

end Collecting

end GraphQL
