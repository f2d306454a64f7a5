import GraphQL.Proofs.Execution.Plans

/-! Whether a request asks for concurrency is carried along and does not change what is planned. -/

namespace GraphQL

/-- The same place in a request that asks for concurrency or does not. -/
def Cursor.inMode (concurrent : Bool) (c : Cursor) : Cursor :=
  { c with scope := { c.scope with concurrent := concurrent } }

def FieldTask.inMode (concurrent : Bool) (t : FieldTask) : FieldTask :=
  { t with cursor := t.cursor.inMode concurrent }

def Narrowing.inMode (concurrent : Bool) (n : Narrowing) : Narrowing :=
  { n with cursor := n.cursor.inMode concurrent }

mutual

def Step.inMode (concurrent : Bool) : Step → Step
  | .typename key => .typename key
  | .field t => .field (t.inMode concurrent)
  | .splice plan => .splice fun _ => (plan ()).inMode concurrent
  | .narrow n plan => .narrow (n.inMode concurrent) fun _ => (plan ()).inMode concurrent

def Plan.inMode (concurrent : Bool) : Plan → Plan
  | .done => .done
  | .stop v => .stop v
  | .step s rest => .step (s.inMode concurrent) (rest.inMode concurrent)

end

theorem Cursor.inMode_of_eq {concurrent : Bool} {c : Cursor}
    (h : c.scope.concurrent = concurrent) : c.inMode concurrent = c := by
  subst h
  rfl

section

variable {concurrent : Bool}

theorem Step.ofInline_inMode (concurrent : Bool) (head : InlineHead) (inner : Cursor)
    (plan : Unit → Plan) :
    Step.ofInline head (inner.inMode concurrent) (fun _ => (plan ()).inMode concurrent) =
      (Step.ofInline head inner plan).inMode concurrent := by
  unfold Step.ofInline
  cases head.condition <;> rfl

/-- Every cursor of a step is in a request of a given mode. -/
abbrev Step.IsIn (concurrent : Bool) : Step → Prop :=
  All (fun t => t.cursor.scope.concurrent = concurrent)
    (fun n => n.cursor.scope.concurrent = concurrent) fun _ => True

abbrev Plan.IsIn (concurrent : Bool) : Plan → Prop :=
  All (fun t => t.cursor.scope.concurrent = concurrent)
    (fun n => n.cursor.scope.concurrent = concurrent) fun _ => True

mutual

theorem Step.isIn_inMode : ∀ s : Step, (s.inMode concurrent).IsIn concurrent
  | .typename _ => trivial
  | .field _ => rfl
  | .splice plan => Plan.isIn_inMode (plan ())
  | .narrow _ plan => ⟨rfl, Plan.isIn_inMode (plan ())⟩

theorem Plan.isIn_inMode : ∀ p : Plan, (p.inMode concurrent).IsIn concurrent
  | .done => trivial
  | .stop _ => trivial
  | .step s rest => ⟨Step.isIn_inMode s, Plan.isIn_inMode rest⟩

end

end

namespace Plan

variable {concurrent : Bool} {subject : Subject} {expand : Expand}

theorem ofField_inMode (c : Cursor) (head : FieldHead) (body : Option SelectionSet) :
    ofField subject (c.inMode concurrent) head body =
      (ofField subject c head body).map (Step.inMode concurrent) := by
  unfold ofField
  split
  · rfl
  · cases subject.type.field? head.name.value with
    | none => rfl
    | some declaration =>
      simp only [Cursor.atField, Cursor.inMode, bind, Except.bind, pure, Except.pure]
      cases c.scope.schema.position declaration.type <;> rfl

mutual

theorem ofSelection_inMode
    (hexpand : ∀ c f, expand (c.inMode concurrent) f = (expand c f).inMode concurrent) :
    ∀ (x : Selection) (c : Cursor),
      ofSelection subject expand (c.inMode concurrent) x =
        (ofSelection subject expand c x).map (Option.map (Step.inMode concurrent))
  | .field head body, c => by
    unfold ofSelection
    rw [ofField_inMode]
    simp only [Cursor.inMode, bind, Except.bind, pure, Except.pure]
    cases Directives.exclude c.scope.vars (head.directives.getD []) with
    | error v => rfl
    | ok excluded =>
      cases excluded with
      | true => rfl
      | false => cases ofField subject c head body <;> rfl
  | .spread sp, c => by
    rw [ofSelection_spread, ofSelection_spread]
    simp only [hexpand]
    change (c.scope.spreadOn subject.objectName sp).map _ = _
    rcases c.scope.spreadOn subject.objectName sp with v | _ | f <;> rfl
  | .inline head body, c => by
    have hinner : (c.inMode concurrent).atInline head.condition body =
        (c.atInline head.condition body).inMode concurrent := rfl
    have hstep := Step.ofInline_inMode concurrent head (c.atInline head.condition body)
      fun _ => ofSelections subject expand (c.atInline head.condition body) body
    rw [ofSelection_inline, ofSelection_inline, hinner, ofSelections_inMode hexpand body]
    change (c.scope.entersInline subject.objectName head).map _ = _
    rcases c.scope.entersInline subject.objectName head with v | _ | _
    · rfl
    · rfl
    · exact congrArg (Except.ok ∘ some) hstep

theorem ofSelections_inMode
    (hexpand : ∀ c f, expand (c.inMode concurrent) f = (expand c f).inMode concurrent) :
    ∀ (xs : List Selection) (c : Cursor),
      ofSelections subject expand (c.inMode concurrent) xs =
        (ofSelections subject expand c xs).inMode concurrent
  | [], _ => rfl
  | x :: rest, c => by
    unfold ofSelections
    rw [ofSelection_inMode hexpand x c, ofSelections_inMode hexpand rest c]
    rcases ofSelection subject expand c x with v | _ | s <;> rfl

end

theorem expandUpTo_inMode (depth : Nat) (c : Cursor) (f : Fragment) :
    expandUpTo subject depth (c.inMode concurrent) f =
      (expandUpTo subject depth c f).inMode concurrent := by
  induction depth generalizing c f with
  | zero => rfl
  | succ depth ih => exact ofSelections_inMode ih f.selections c

/-- What is planned does not depend on the mode. -/
theorem ofSelectionSet_inMode (c : Cursor) (selections : SelectionSet) :
    ofSelectionSet subject (c.inMode concurrent) selections =
      (ofSelectionSet subject c selections).inMode concurrent :=
  ofSelections_inMode (expandUpTo_inMode _) selections c

theorem isIn_ofSelectionSet {c : Cursor} (h : c.scope.concurrent = concurrent)
    (selections : SelectionSet) : (ofSelectionSet subject c selections).IsIn concurrent := by
  have hplan : ((ofSelectionSet subject c selections).inMode concurrent).IsIn concurrent :=
    isIn_inMode _
  rwa [← ofSelectionSet_inMode, Cursor.inMode_of_eq h] at hplan

end Plan

end GraphQL
