import GraphQL.Proofs.Execution.Collected
import GraphQL.Proofs.Execution.Expansion

/-! Plans that never stop. In a valid document whose directives have the truth values that they
need, planning finds all that it needs on every object, and so does whatever it hands on. -/

namespace GraphQL

namespace Selection

mutual

/-- The directives of a selection and of all inside it have the truth values that they need. -/
def IsDecided (vars : Variables) : Selection → Prop
  | .field head none => ∃ b, Directives.exclude vars (head.directives.getD []) = .ok b
  | .field head (some body) =>
    (∃ b, Directives.exclude vars (head.directives.getD []) = .ok b) ∧ AreDecided vars body
  | .spread sp => ∃ b, Directives.exclude vars (sp.directives.getD []) = .ok b
  | .inline head body =>
    (∃ b, Directives.exclude vars (head.directives.getD []) = .ok b) ∧ AreDecided vars body

def AreDecided (vars : Variables) : List Selection → Prop
  | [] => True
  | x :: rest => x.IsDecided vars ∧ AreDecided vars rest

end

variable {vars : Variables} {head : FieldHead} {body : Option SelectionSet}

theorem IsDecided.excludes (h : (Selection.field head body).IsDecided vars) :
    ∃ b, Directives.exclude vars (head.directives.getD []) = .ok b := by
  cases body with
  | none => exact h
  | some body => exact h.1

theorem IsDecided.below (h : (Selection.field head body).IsDecided vars) (xs : SelectionSet)
    (hxs : body = some xs) : AreDecided vars xs := by
  subst hxs
  exact h.2

end Selection

open Selection

section Planning

variable {scope : Scope} {d : ObjectDef} {o : Text}

/-- Fragments that are as the rules ask, with directives that have the truth values they need. -/
structure Scope.IsReady (scope : Scope) : Prop where
  sound : scope.Sound
  bound : ∀ xs chain, scope.Nested xs chain → chain.length ≤ scope.fragments.length
  decided : ∀ f ∈ scope.fragments, AreDecided scope.vars f.selections

/-- A cursor where planning finds all that it needs on every object of the expected type. -/
structure Cursor.IsReady (scope : Scope) (expected : Text) (c : Cursor) : Prop where
  suits : ∃ bound, scope.schema.ObjectsWithin expected bound ∧ c.Suits scope bound
  decided : ∀ xs, c.selections = some xs → AreDecided scope.vars xs

/-- What is selected below a field is ready for the objects that the field gives. -/
theorem Cursor.IsBelow.isReady (hs : scope.Sound) {name : Text} {below : Cursor}
    (h : below.IsBelow scope d name)
    (hd : ∀ xs, below.selections = some xs → AreDecided scope.vars xs) :
    ∃ f, (TypeDef.object d).field? name = some f ∧ below.IsReady scope f.type.innermostName := by
  obtain ⟨f, wide, hf, hsub, hsuits⟩ := h
  have hwide := Schema.objectsWithin_of_isNamedSubtype hs.named hs.coherent hsub
  exact ⟨f, hf, ⟨wide, hwide, hsuits⟩, hd⟩

/-- A spread in a valid document puts in a fragment or nothing. -/
theorem Scope.exists_spreadOn (hs : scope.Sound) (ho : (scope.schema.type? o).isSome) {sp : Spread}
    (hsp : ∃ f ∈ scope.fragments, f.name.value = sp.name.value)
    (hd : ∃ b, Directives.exclude scope.vars (sp.directives.getD []) = .ok b) :
    ∃ put, scope.spreadOn o sp = .ok put := by
  obtain ⟨excluded, hx⟩ := hd
  obtain ⟨f, hf, hreq⟩ := Scope.exists_requireFragment hsp
  obtain ⟨applies, hm⟩ := Schema.meetsCondition_of_known (hs.conditions f hf) ho
  refine ⟨if excluded || !applies then none else some f, ?_⟩
  unfold spreadOn
  cases excluded
  all_goals cases applies
  all_goals simp [hx, hreq, hm, bind, Except.bind, pure, Except.pure]

theorem Scope.exists_entersInline (ho : (scope.schema.type? o).isSome) {head : InlineHead}
    (hknown : ∀ condition, head.condition = some condition →
      (scope.schema.type? condition.value).isSome)
    (hd : ∃ b, Directives.exclude scope.vars (head.directives.getD []) = .ok b) :
    ∃ entered, scope.entersInline o head = .ok entered := by
  obtain ⟨excluded, hx⟩ := hd
  unfold entersInline
  rw [hx]
  cases excluded with
  | true => exact ⟨false, rfl⟩
  | false =>
    cases hcond : head.condition with
    | none => exact ⟨true, rfl⟩
    | some condition => exact Schema.meetsCondition_of_known (hknown condition hcond) ho

namespace Plan

variable {expand : Expand}

/-- A plan on an object that never stops, and hands on only to where none stops. -/
abbrev IsReady (scope : Scope) (d : ObjectDef) (p : Plan) : Prop :=
  p.All (fun t => ∃ f, (TypeDef.object d).field? t.name = some f ∧
      t.cursor.IsReady scope f.type.innermostName)
    (fun n => n.cursor.IsReady scope n.condition) fun _ => False

abbrev IsReadyStep (scope : Scope) (d : ObjectDef) (s : Step) : Prop :=
  s.All (fun t => ∃ f, (TypeDef.object d).field? t.name = some f ∧
      t.cursor.IsReady scope f.type.innermostName)
    (fun n => n.cursor.IsReady scope n.condition) fun _ => False

/-- The field of an object that is selected on a type that the object stands for. -/
theorem isReady_ofField (hs : scope.Sound) (ho : scope.schema.type? o = some (.object d))
    {head : FieldHead} {body : Option SelectionSet} {rest : SelectionSet} {c : Cursor}
    {bound : Text} (hc : c.scope = scope) (hk : (scope.schema.type? bound).isSome)
    (hb : scope.schema.isNamedSubtype o bound = true)
    (h : SelectionSet.Checked scope.schema scope.fragments (scope.schema.type? bound)
      (.field head body :: rest))
    (hd : (Selection.field head body).IsDecided scope.vars) :
    ∃ s, ofField ⟨.object d, o⟩ c head body = .ok s ∧ IsReadyStep scope d s := by
  unfold ofField
  by_cases hn : head.name.value = lit "__typename"
  · exact ⟨.typename head.responseName, by simp [hn, pure, Except.pure], trivial⟩
  · obtain ⟨f, hf, hbelow⟩ := exists_field hs ho hb hk h hn
    obtain ⟨below, hat, hbelow⟩ := hbelow c hc
    obtain ⟨type, -, hcursor⟩ := Cursor.exists_of_atField hat
    have hselections : below.selections = body := by rw [hcursor]
    have hready := hbelow.isReady hs fun xs hxs => hd.below xs (hselections ▸ hxs)
    refine ⟨.field ⟨head.responseName, head.name.value,
      .ofField c.scope.vars head f.arguments, below, f.type.isNonNull⟩, ?_, hready⟩
    simp [hn, hf, hat, bind, Except.bind, pure, Except.pure]

mutual

theorem isReady_ofSelection (hs : scope.Sound) (ho : scope.schema.type? o = some (.object d))
    (hexpand : ∀ c, ∀ f ∈ scope.fragments, c.scope = scope →
      scope.schema.isNamedSubtype o f.condition.value = true → (expand c f).IsReady scope d) :
    ∀ (x : Selection) (rest : SelectionSet) (c : Cursor) (bound : Text), c.scope = scope →
      (scope.schema.type? bound).isSome → scope.schema.isNamedSubtype o bound = true →
      SelectionSet.Checked scope.schema scope.fragments (scope.schema.type? bound) (x :: rest) →
      x.IsDecided scope.vars →
      ∃ step, ofSelection ⟨.object d, o⟩ expand c x = .ok step ∧
        ∀ s, step = some s → IsReadyStep scope d s
  | .field head body, rest, c, bound, hc, hk, hb, h, hd => by
    obtain ⟨excluded, hx⟩ := hd.excludes
    obtain ⟨s, hfield, hready⟩ := isReady_ofField hs ho hc hk hb h hd
    unfold ofSelection
    rw [hc, hx]
    cases excluded with
    | true => exact ⟨none, rfl, nofun⟩
    | false =>
      refine ⟨some s, ?_, fun s' hs' => Option.some.inj hs' ▸ hready⟩
      simp [hfield, bind, Except.bind, pure, Except.pure]
  | .spread sp, rest, c, bound, hc, hk, hb, h, hd => by
    obtain ⟨put, hput⟩ := Scope.exists_spreadOn hs (o := o) (by simp [ho]) h.spread hd
    rw [ofSelection_spread, hc, hput]
    cases put with
    | none => exact ⟨none, rfl, nofun⟩
    | some f =>
      obtain ⟨hf, hsub⟩ := Scope.stands_of_spreadOn hput
      have hinside := hexpand c f hf hc hsub
      exact ⟨_, rfl, fun s hs' => Option.some.inj hs' ▸ hinside⟩
  | .inline head body, rest, c, bound, hc, hk, hb, h, hd => by
    have hbody := hd.2
    have hknown : ∀ condition, head.condition = some condition →
        (scope.schema.type? condition.value).isSome := fun _ => h.condition
    obtain ⟨entered, hx⟩ := Scope.exists_entersInline (o := o) (by simp [ho]) hknown hd.1
    rw [ofSelection_inline, hc, hx]
    cases entered with
    | false => exact ⟨none, rfl, nofun⟩
    | true =>
      have hinner := h.inside
      refine ⟨_, rfl, fun s hs' => ?_⟩
      obtain rfl := Option.some.inj hs'
      unfold Step.ofInline
      cases hcond : head.condition with
      | none =>
        rw [hcond] at hinner
        exact isReady_ofSelections hs ho hexpand body _ bound hc hk hb hinner hbody
      | some condition =>
        rw [hcond] at hinner
        have hsuits : (c.atInline (some condition) body).Suits scope condition.value :=
          ⟨hc, hknown condition hcond, fun xs hxs => Option.some.inj hxs ▸ hinner⟩
        have hready : (c.atInline (some condition) body).IsReady scope condition.value :=
          ⟨⟨_, .self _ _, hsuits⟩, fun xs hxs => Option.some.inj hxs ▸ hbody⟩
        exact ⟨hready, isReady_ofSelections hs ho hexpand body _ condition.value hc
          (hknown condition hcond) (Scope.stands_of_entersInline hx hcond) hinner hbody⟩

theorem isReady_ofSelections (hs : scope.Sound) (ho : scope.schema.type? o = some (.object d))
    (hexpand : ∀ c, ∀ f ∈ scope.fragments, c.scope = scope →
      scope.schema.isNamedSubtype o f.condition.value = true → (expand c f).IsReady scope d) :
    ∀ (xs : List Selection) (c : Cursor) (bound : Text), c.scope = scope →
      (scope.schema.type? bound).isSome → scope.schema.isNamedSubtype o bound = true →
      SelectionSet.Checked scope.schema scope.fragments (scope.schema.type? bound) xs →
      AreDecided scope.vars xs →
      (ofSelections ⟨.object d, o⟩ expand c xs).IsReady scope d
  | [], _, _, _, _, _, _, _ => trivial
  | x :: rest, c, bound, hc, hk, hb, h, hd => by
    obtain ⟨step, hx, hstep⟩ := isReady_ofSelection hs ho hexpand x rest c bound hc hk hb h hd.1
    have hrest := isReady_ofSelections hs ho hexpand rest c bound hc hk hb h.tail hd.2
    unfold ofSelections
    rw [hx]
    cases step with
    | none => exact hrest
    | some s => exact ⟨hstep s rfl, hrest⟩

end

/-- Planning inside fragments, with nothing planned inside those that lie deeper. -/
theorem isReady_upTo (hscope : scope.IsReady) (ho : scope.schema.type? o = some (.object d))
    (depth : Nat) : ∀ c, ∀ f ∈ scope.fragments, c.scope = scope →
      scope.schema.isNamedSubtype o f.condition.value = true →
      (Traversal.upTo (ofSelections ⟨.object d, o⟩) (fun _ _ => .done) depth c f).IsReady
        scope d := by
  have hs := hscope.sound
  induction depth with
  | zero => exact fun _ _ _ _ _ => trivial
  | succ depth ih =>
    exact fun c f hf hc hsub =>
      isReady_ofSelections hs ho ih f.selections c _ hc (hs.conditions f hf) hsub
        (hs.fragments f hf) (hscope.decided f hf)

/-- Planning comes to its end on every object that stands for the expected type. -/
theorem isReady_ofSelectionSet (hscope : scope.IsReady)
    (ho : scope.schema.type? o = some (.object d)) {expected : Text}
    (hsub : scope.schema.isNamedSubtype o expected = true) {c : Cursor}
    (hc : c.IsReady scope expected) {xs : SelectionSet} (hxs : c.selections = some xs) :
    (ofSelectionSet ⟨.object d, o⟩ c xs).IsReady scope d := by
  obtain ⟨bound, hwithin, hsuits⟩ := hc.suits
  have hends : Traversal.Ends (ofSelections ⟨.object d, o⟩) (fun c => c.scope = scope) _ _ :=
    Plan.ends hscope.bound
  rw [← hends.bounded _ (Nat.le_refl _) (fun _ _ => .done) c xs hsuits.inScope]
  exact isReady_ofSelections hscope.sound ho (isReady_upTo hscope ho _) xs c bound hsuits.inScope
    hsuits.known (hwithin o d ho hsub) (hsuits.selections xs hxs) (hc.decided xs hxs)

end Plan

namespace RootField

variable {expand : Expand}

/-- Fields, if collecting comes to any, below which the directives have the truth values they
need. -/
def AreDecided (vars : Variables) (x : Except Violation (List RootField)) : Prop :=
  ∀ fields, x = .ok fields → ∀ f ∈ fields, ∀ body, f.selections = some body →
    Selection.AreDecided vars body

theorem AreDecided.nil (vars : Variables) : AreDecided vars (.ok []) := by
  intro fields h f hf
  obtain rfl := Except.ok.inj h
  cases hf

theorem AreDecided.error (vars : Variables) (v : Violation) : AreDecided vars (.error v) := nofun

mutual

theorem areDecided_ofSelection
    (hexpand : ∀ f ∈ scope.fragments, AreDecided scope.vars (expand f)) :
    ∀ x : Selection, x.IsDecided scope.vars →
      AreDecided scope.vars (ofSelection scope o expand x)
  | .field head body, hd => by
    rw [ofSelection_eq]
    rcases Directives.exclude scope.vars ((Selection.field head body).directives.getD [])
      with v | _ | _
    · exact .error _ v
    · intro fields h f hf xs hxs
      obtain rfl := Except.ok.inj h
      obtain rfl := List.mem_singleton.mp hf
      exact hd.below xs hxs
    · exact .nil _
  | .spread sp, _ => by
    rw [ofSelection_spread]
    rcases hput : scope.spreadOn o sp with v | _ | f
    · exact .error _ v
    · exact .nil _
    · exact hexpand f (Scope.stands_of_spreadOn hput).1
  | .inline head body, hd => by
    rw [ofSelection_inline]
    rcases scope.entersInline o head with v | _ | _
    · exact .error _ v
    · exact .nil _
    · exact areDecided_ofSelections hexpand body hd.2

theorem areDecided_ofSelections
    (hexpand : ∀ f ∈ scope.fragments, AreDecided scope.vars (expand f)) :
    ∀ xs : List Selection, Selection.AreDecided scope.vars xs →
      AreDecided scope.vars (ofSelections scope o expand xs)
  | [], _ => .nil _
  | x :: rest, hd => by
    have hx := areDecided_ofSelection hexpand x hd.1
    have hrest := areDecided_ofSelections hexpand rest hd.2
    intro fields h f hf
    obtain ⟨first, others, hfirst, hothers, rfl⟩ := exists_of_ofSelections_cons h
    rcases List.mem_append.mp hf with hf | hf
    · exact hx first hfirst f hf
    · exact hrest others hothers f hf

end

theorem areDecided_ofSelectionSet (hscope : scope.IsReady) {xs : SelectionSet}
    (hd : Selection.AreDecided scope.vars xs) :
    AreDecided scope.vars (ofSelectionSet scope o xs) := by
  have hexpand (depth : Nat) :
      ∀ f ∈ scope.fragments, AreDecided scope.vars (expandUpTo scope o depth f) := by
    induction depth with
    | zero => exact fun f _ => .error _ (.endlessFragment f.name.value)
    | succ depth ih =>
      exact fun f hf => areDecided_ofSelections ih f.selections (hscope.decided f hf)
  exact areDecided_ofSelections (hexpand _) xs hd

end RootField

end Planning

/-- The fragments of a valid document are ready in the scope of each of its operations. -/
theorem Document.isReady_scope {schema : Schema} {doc : Document} (hs : schema.Built)
    (hc : schema.Coherent) (hvalid : Validator.isValid Rules.builtin schema doc = true)
    (op : Operation) (settings : Settings)
    (hd : ∀ f ∈ doc.fragments, AreDecided (op.withDefaults settings.vars) f.selections) :
    (op.scope schema doc settings).IsReady := by
  have hchecked := checked_of_isValid hvalid
  obtain ⟨-, -, -, hcycles⟩ := check_of_isValid hvalid
  have hcirc (name : Text) :
      ¬ Relation.TransGen (Fragment.Leads doc.fragments) name name := by
    rw [← Fragment.leads_eq]
    exact Cycles.not_transGen_of_search hcycles name
  refine ⟨⟨hs.wellNamed, hc, hchecked.conditions, hchecked.fragments⟩, fun xs chain h => ?_, hd⟩
  exact h.length_le hcirc

end GraphQL
