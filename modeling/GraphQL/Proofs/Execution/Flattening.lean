import Mathlib.Data.List.Forall2
import GraphQL.Proofs.Execution.Entity

/-! Fragments replaced in place by what they hold. The plan comes to the same fields, except that a
field may have the fragment replaced in what is selected below it. -/

namespace GraphQL

/-- Cursors at one place of the response in one request. -/
def Cursor.SamePlace (c c' : Cursor) : Prop := c.scope = c'.scope ∧ c.path = c'.path

theorem Cursor.SamePlace.atInline {c c' : Cursor} (h : c.SamePlace c')
    (condition : Option (Located Text)) (body body' : SelectionSet) :
    (c.atInline condition body).SamePlace (c'.atInline condition body') := h

namespace Plan

def append : Plan → Plan → Plan
  | done, q => q
  | stop v, _ => stop v
  | step s rest, q => step s (rest.append q)

theorem isComplete_append : ∀ p q : Plan,
    (p.append q).IsComplete ↔ p.IsComplete ∧ q.IsComplete
  | done, _ => ⟨fun h => ⟨trivial, h⟩, fun h => h.2⟩
  | stop _, _ => ⟨False.elim, fun h => h.1⟩
  | step s rest, q => by
    refine (and_congr_right fun _ => isComplete_append rest q).trans ?_
    exact and_assoc.symm

theorem leaves_append : ∀ {p : Plan} (q : Plan), p.IsComplete →
    (p.append q).leaves = p.leaves ++ q.leaves
  | done, _, _ => rfl
  | stop _, _, h => h.elim
  | step s rest, q, h => by
    rw [append, leaves, leaves, leaves_append q h.2, List.append_assoc]

theorem ofSelections_append (subject : Subject) (expand : Expand) (c : Cursor)
    (xs ys : List Selection) : ofSelections subject expand c (xs ++ ys) =
      (ofSelections subject expand c xs).append (ofSelections subject expand c ys) := by
  induction xs with
  | nil => rfl
  | cons x rest ih =>
    rw [List.cons_append, ofSelections, ofSelections]
    rcases ofSelection subject expand c x with v | _ | s
    · rfl
    · exact ih
    · simp only [append, ih]

/-- Where one plan is complete, so is the other, and their fields correspond. -/
def Maps (R : Leaf → Leaf → Prop) (p q : Plan) : Prop :=
  p.IsComplete → q.IsComplete ∧ List.Forall₂ R p.leaves q.leaves

section Maps

variable {R : Leaf → Leaf → Prop}

theorem Maps.append {p p' q q' : Plan} (hp : p.Maps R p') (hq : q.Maps R q') :
    (p.append q).Maps R (p'.append q') := by
  intro h
  obtain ⟨hpc, hqc⟩ := (isComplete_append p q).mp h
  obtain ⟨hp', hleft⟩ := hp hpc
  obtain ⟨hq', hright⟩ := hq hqc
  refine ⟨(isComplete_append p' q').mpr ⟨hp', hq'⟩, ?_⟩
  rw [leaves_append q hpc, leaves_append q' hp']
  exact List.rel_append hleft hright

theorem Maps.refl (hR : ∀ l, R l l) (p : Plan) : p.Maps R p :=
  fun h => ⟨h, List.forall₂_same.mpr fun l _ => hR l⟩

theorem Maps.splice {p q : Unit → Plan} (h : (p ()).Maps R (q ())) :
    (step (.splice p) .done).Maps R (step (.splice q) .done) := by
  intro hp
  obtain ⟨hq, hleaves⟩ := h hp.1
  exact ⟨⟨hq, trivial⟩, List.rel_append hleaves .nil⟩

theorem Maps.inline {head : InlineHead} {inner inner' : Cursor} {p q : Unit → Plan}
    (h : (p ()).Maps R (q ())) :
    (step (.ofInline head inner p) .done).Maps R (step (.ofInline head inner' q) .done) := by
  unfold Step.ofInline
  cases head.condition with
  | none => exact .splice h
  | some condition =>
    intro hp
    obtain ⟨hq, hleaves⟩ := h hp.1.2
    exact ⟨⟨⟨trivial, hq⟩, trivial⟩, List.rel_append hleaves .nil⟩

theorem Maps.ofSpliced {p : Unit → Plan} {q : Plan} (h : (p ()).Maps R q) :
    (step (.splice p) .done).Maps R q := by
  intro hp
  obtain ⟨hq, hleaves⟩ := h hp.1
  exact ⟨hq, by simpa [leaves, Step.leaves] using hleaves⟩

theorem Maps.ofInlined {head : InlineHead} {inner : Cursor} {p : Unit → Plan} {q : Plan}
    (h : (p ()).Maps R q) : (step (.ofInline head inner p) .done).Maps R q := by
  unfold Step.ofInline
  cases head.condition with
  | none => exact .ofSpliced h
  | some condition =>
    intro hp
    obtain ⟨hq, hleaves⟩ := h hp.1.2
    exact ⟨hq, by simpa [leaves, Step.leaves] using hleaves⟩

end Maps

def Expand.Maps (R : Leaf → Leaf → Prop) (expand expand' : Expand) : Prop :=
  ∀ c c' f, c.SamePlace c' → (expand c f).Maps R (expand' c' f)

section Selections

variable {R : Leaf → Leaf → Prop} {subject : Subject} {expand expand' : Expand}

theorem ofField_samePlace {c c' : Cursor} (h : c.SamePlace c') (head : FieldHead)
    (body : Option SelectionSet) : ofField subject c head body = ofField subject c' head body := by
  obtain ⟨scope, _, _, path, _, _⟩ := c
  obtain ⟨_, _, _, _, _, _⟩ := c'
  obtain ⟨rfl, rfl⟩ := h
  rfl

theorem ofField_cases (subject : Subject) (c : Cursor) (head : FieldHead) :
    (∃ v, ∀ body, ofField subject c head body = .error v) ∨
    (∀ body, ofField subject c head body = .ok (.typename head.responseName)) ∨
    ∃ (declaration : FieldDef) (t : FieldTask), head.name.value ≠ lit "__typename" ∧
      subject.type.field? head.name.value = some declaration ∧ t.name = head.name.value ∧
      t.arguments = .ofField c.scope.vars head declaration.arguments ∧
      t.cursor.scope = c.scope ∧ ∀ body, ofField subject c head body =
        .ok (.field { t with cursor := { t.cursor with selections := body } }) := by
  unfold ofField
  by_cases hname : head.name.value = lit "__typename"
  · exact .inr (.inl fun _ => if_pos (beq_iff_eq.mpr hname))
  · simp only [beq_iff_eq, hname, if_false]
    cases hd : subject.type.field? head.name.value with
    | none => exact .inl ⟨_, fun _ => rfl⟩
    | some declaration =>
      cases hp : c.scope.schema.position declaration.type with
      | error v =>
        refine .inl ⟨v, fun body => ?_⟩
        simp only [Cursor.atField, hp]
        rfl
      | ok position =>
        refine .inr (.inr ⟨declaration, ⟨head.responseName, head.name.value,
          .ofField c.scope.vars head declaration.arguments,
          ⟨c.scope, none, position, c.path.field head.responseName head.span.start,
            some ⟨head, declaration⟩, false⟩, declaration.type.isNonNull⟩,
          hname, rfl, rfl, rfl, rfl, fun body => ?_⟩)
        simp only [Cursor.atField, hp]
        rfl

mutual

theorem ofSelection_maps (hR : ∀ l, R l l) (hexpand : expand.Maps R expand') :
    ∀ (x : Selection) {c c' : Cursor}, c.SamePlace c' →
      (ofSelections subject expand c [x]).Maps R (ofSelections subject expand' c' [x])
  | .field head body, c, c', hc => by
    have hplan : ofSelections subject expand c [.field head body] =
        ofSelections subject expand' c' [.field head body] := by
      simp only [ofSelections, ofSelection, ofField_samePlace hc, hc.1]
    rw [hplan]
    exact .refl hR _
  | .spread sp, c, c', hc => by
    simp only [ofSelections, ofSelection_spread, hc.1]
    rcases c'.scope.spreadOn subject.objectName sp with v | _ | f
    · exact .refl hR _
    · exact .refl hR _
    · exact .splice (hexpand c c' f hc)
  | .inline head body, c, c', hc => by
    have hbody := ofSelections_maps hR hexpand body (hc.atInline head.condition body body)
    simp only [ofSelections, ofSelection_inline, hc.1]
    rcases c'.scope.entersInline subject.objectName head with v | _ | _
    · exact .refl hR _
    · exact .refl hR _
    · exact .inline hbody

theorem ofSelections_maps (hR : ∀ l, R l l) (hexpand : expand.Maps R expand') :
    ∀ (xs : List Selection) {c c' : Cursor}, c.SamePlace c' →
      (ofSelections subject expand c xs).Maps R (ofSelections subject expand' c' xs)
  | [], _, _, _ => .refl hR _
  | x :: rest, c, c', hc => by
    have happend := ofSelections_append subject expand c [x] rest
    have happend' := ofSelections_append subject expand' c' [x] rest
    rw [List.singleton_append] at happend happend'
    rw [happend, happend']
    exact (ofSelection_maps hR hexpand x hc).append (ofSelections_maps hR hexpand rest hc)

end

theorem expandUpTo_maps (hR : ∀ l, R l l) {depth more : Nat} (h : depth ≤ more) :
    Expand.Maps R (expandUpTo subject depth) (expandUpTo subject more) := by
  induction depth generalizing more with
  | zero => exact fun _ _ _ _ hstop => hstop.elim
  | succ depth ih =>
    obtain ⟨more, rfl⟩ := Nat.exists_eq_add_one_of_ne_zero (by omega : more ≠ 0)
    exact fun c c' f hc => ofSelections_maps hR (ih (by omega)) f.selections hc

theorem ofSelections_maps_between (hR : ∀ l, R l l) (hexpand : expand.Maps R expand)
    {c c' : Cursor} (hc : c.SamePlace c') {xs ys : List Selection}
    (h : (ofSelections subject expand c xs).Maps R (ofSelections subject expand c' ys))
    (before after : List Selection) :
    (ofSelections subject expand c (before ++ (xs ++ after))).Maps R
      (ofSelections subject expand c' (before ++ (ys ++ after))) := by
  rw [ofSelections_append, ofSelections_append, ofSelections_append, ofSelections_append]
  exact (ofSelections_maps hR hexpand before hc).append
    (h.append (ofSelections_maps hR hexpand after hc))

end Selections

end Plan

/-- A fragment that is not excluded, its condition and what it holds. -/
inductive Selection.StandsFor (scope : Scope) : Selection → Option Text → SelectionSet → Prop where
  | spread {sp : Spread} {f : Fragment}
      (included : Directives.exclude scope.vars (sp.directives.getD []) = .ok false)
      (found : scope.requireFragment sp.name.value = .ok f) :
      StandsFor scope (.spread sp) (some f.condition.value) f.selections
  | inline {head : InlineHead} {body : SelectionSet}
      (included : Directives.exclude scope.vars (head.directives.getD []) = .ok false) :
      StandsFor scope (.inline head body) (head.condition.map (·.value)) body

/-- An object is of a type that a condition asks for, if it asks. -/
def Entity.Meets (e : Entity) (scope : Scope) (condition : Option Text) : Prop :=
  ∀ name, condition = some name → scope.schema.meetsCondition name e.objectName = .ok true

/-- A place among selections, in those below a field or in those of an inline fragment. -/
inductive Place where
  | here (before after : List Selection)
  | inField (before : List Selection) (head : FieldHead) (inside : Place) (after : List Selection)
  | inInline (before : List Selection) (head : InlineHead) (inside : Place) (after : List Selection)

namespace Place

def fill : Place → List Selection → SelectionSet
  | here before after, xs => before ++ (xs ++ after)
  | inField before head inside after, xs =>
    before ++ ([.field head (some (inside.fill xs))] ++ after)
  | inInline before head inside after, xs => before ++ ([.inline head (inside.fill xs)] ++ after)

/-- Every object on which the selections at a place are resolved meets a condition. -/
def Matches (scope : Scope) (condition : Option Text) : Place → Entity → Prop
  | here _ _, e => e.Meets scope condition
  | inField _ head inside _, e =>
    Directives.exclude scope.vars (head.directives.getD []) = .ok false →
      ∀ type declaration, scope.schema.type? e.typeName = some type →
        head.name.value ≠ lit "__typename" → type.field? head.name.value = some declaration →
          ∀ child ∈ (e.reply head.name.value
            (.ofField scope.vars head declaration.arguments)).entities,
            inside.Matches scope condition child
  | inInline _ head inside _, e =>
    Directives.exclude scope.vars (head.directives.getD []) = .ok false →
      e.Meets scope (head.condition.map (·.value)) → inside.Matches scope condition e

end Place

/-- The same field, or a field with a fragment replaced in what is selected below it. -/
inductive Leaf.Unfolds (scope : Scope) (condition : Option Text) (x : Selection)
    (own : SelectionSet) (e : Entity) : Leaf → Leaf → Prop where
  | same (l : Leaf) : Unfolds scope condition x own e l l
  | below {t : FieldTask} {inside : Place} (hscope : t.cursor.scope = scope)
      (hselections : t.cursor.selections = some (inside.fill [x]))
      (hmatches : ∀ child ∈ (e.reply t.name t.arguments).entities,
        inside.Matches scope condition child) :
      Unfolds scope condition x own e (.field t)
        (.field { t with cursor := { t.cursor with selections := some (inside.fill own) } })

section Unfolding

variable {scope : Scope} {condition : Option Text} {x : Selection} {own : SelectionSet}
  {e : Entity} {type : TypeDef} {depth : Nat}

open Plan

theorem Selection.StandsFor.maps {R : Leaf → Leaf → Prop} (hR : ∀ l, R l l)
    (hx : x.StandsFor scope condition own) (hm : e.Meets scope condition) {c c' : Cursor}
    (hscope : c.scope = scope) (hc : c.SamePlace c') :
    (ofSelections ⟨type, e.objectName⟩ (expandUpTo ⟨type, e.objectName⟩ depth) c [x]).Maps R
      (ofSelections ⟨type, e.objectName⟩ (expandUpTo ⟨type, e.objectName⟩ depth) c' own) := by
  cases hx with
  | @spread sp f included found =>
    have hput : c.scope.spreadOn e.objectName sp = .ok (some f) :=
      hscope ▸ Scope.spreadOn_iff.mpr ⟨included, found, hm _ rfl⟩
    rw [ofSelections, ofSelection_spread, hput]
    refine .ofSpliced ?_
    -- taken apart, the fragment no longer counts as one that the fragments inside it lie in
    cases depth with
    | zero => exact fun hstop => hstop.elim
    | succ depth =>
      exact ofSelections_maps hR (expandUpTo_maps hR (Nat.le_succ depth)) f.selections hc
  | @inline head body included =>
    have hentered : c.scope.entersInline e.objectName head = .ok true :=
      hscope ▸ Scope.entersInline_iff.mpr ⟨included, hm⟩
    rw [ofSelections, ofSelection_inline, hentered]
    exact .ofInlined
      (ofSelections_maps hR (expandUpTo_maps hR (Nat.le_refl depth)) own hc)

theorem ofField_maps (inside : Place) {head : FieldHead} {c c' : Cursor} (hscope : c.scope = scope)
    (hc : c.SamePlace c') (htype : scope.schema.type? e.typeName = some type)
    (hm : (Place.inField [] head inside []).Matches scope condition e) {expand expand' : Expand} :
    (ofSelections ⟨type, e.objectName⟩ expand c [.field head (some (inside.fill [x]))]).Maps
      (Leaf.Unfolds scope condition x own e)
      (ofSelections ⟨type, e.objectName⟩ expand' c' [.field head (some (inside.fill own))]) := by
  have hscope' : c'.scope = scope := hc.1.symm.trans hscope
  simp only [ofSelections, ofSelection, ← ofField_samePlace hc, hscope, hscope', bind, Except.bind,
    pure, Except.pure]
  cases hex : Directives.exclude scope.vars (head.directives.getD []) with
  | error v => exact .refl Leaf.Unfolds.same _
  | ok excluded =>
    cases excluded with
    | true => exact .refl Leaf.Unfolds.same _
    | false =>
      rcases ofField_cases ⟨type, e.objectName⟩ c head with
        ⟨v, hv⟩ | hkey | ⟨declaration, t, hname, hd, ht, harguments, htscope, hfield⟩
      · simp only [hv, Bool.false_eq_true, if_false]
        exact .refl Leaf.Unfolds.same _
      · simp only [hkey, Bool.false_eq_true, if_false]
        exact .refl Leaf.Unfolds.same _
      · simp only [hfield, Bool.false_eq_true, if_false]
        have hchildren := hm hex type declaration htype hname hd
        rw [← ht, ← congrArg Scope.vars hscope, ← harguments] at hchildren
        exact fun _ => ⟨⟨trivial, trivial⟩, .cons
          (.below (t := { t with cursor := { t.cursor with selections := some (inside.fill [x]) } })
            (htscope.trans hscope) rfl hchildren) .nil⟩

/-- Where a fragment is replaced by what it holds, the plan comes to the same fields. -/
theorem Place.maps (hx : x.StandsFor scope condition own)
    (htype : scope.schema.type? e.typeName = some type) : ∀ (place : Place) {c c' : Cursor},
      c.scope = scope → c.SamePlace c' → place.Matches scope condition e →
      (ofSelections ⟨type, e.objectName⟩ (expandUpTo ⟨type, e.objectName⟩ depth) c
        (place.fill [x])).Maps (Leaf.Unfolds scope condition x own e)
        (ofSelections ⟨type, e.objectName⟩ (expandUpTo ⟨type, e.objectName⟩ depth) c'
          (place.fill own))
  | .here before after, c, c', hscope, hc, hm =>
    ofSelections_maps_between .same (expandUpTo_maps .same (Nat.le_refl depth)) hc
      (hx.maps .same hm hscope hc) before after
  | .inField before head inside after, c, c', hscope, hc, hm =>
    ofSelections_maps_between .same (expandUpTo_maps .same (Nat.le_refl depth)) hc
      (ofField_maps inside hscope hc htype hm) before after
  | .inInline before head inside after, c, c', hscope, hc, hm => by
    refine ofSelections_maps_between .same (expandUpTo_maps .same (Nat.le_refl depth)) hc ?_
      before after
    have hinner : (c.atInline head.condition (inside.fill [x])).scope = scope := hscope
    simp only [ofSelections, ofSelection_inline, ← hc.1, hscope]
    cases hentered : scope.entersInline e.objectName head with
    | error v => exact .refl .same _
    | ok entered =>
      cases entered with
      | false => exact .refl .same _
      | true =>
        obtain ⟨included, hmeets⟩ := Scope.entersInline_iff.mp hentered
        exact .inline (Place.maps hx htype inside hinner
          (hc.atInline head.condition (inside.fill [x]) (inside.fill own)) (hm included hmeets))

end Unfolding

end GraphQL
