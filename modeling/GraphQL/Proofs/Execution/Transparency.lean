import GraphQL.Proofs.Execution.Coherence
import GraphQL.Proofs.Execution.Concurrency
import GraphQL.Proofs.Execution.Flattening

/-! Fragments are transparent. In a run in which no null is refused and fields that meet ask the same,
a fragment can be replaced in place by what it holds: the data and the errors stay as they are. -/

namespace GraphQL

/-- Processes that end in the same way and record the same errors in the order of the document. -/
structure Process.Alike (p q : Process) : Prop where
  result : p.result = q.result
  errors : ∀ concurrent, p.errors concurrent = q.errors concurrent

namespace Process.Alike

variable {p q : Process}

theorem refl (p : Process) : p.Alike p := ⟨rfl, fun _ => rfl⟩

theorem andThen (h : p.Alike q) {k k' : Ending → Process} (hk : (k p.result).Alike (k' p.result)) :
    (p.andThen k).Alike (q.andThen k') where
  result := by
    rw [result_andThen, result_andThen, ← h.result, hk.result]
  errors concurrent := by
    rw [errors_andThen, errors_andThen, ← h.result, h.errors, hk.errors]

theorem bind (h : p.Alike q) {k k' : Value → Process}
    (hk : ∀ v, p.result = .ok v → (k v).Alike (k' v)) : (p.bind k).Alike (q.bind k') := by
  refine h.andThen ?_
  cases hr : p.result with
  | ok v => exact hk v hr
  | error r => exact .refl _

theorem captured (h : p.Alike q) {c c' : Cursor} (hc : c.path = c'.path) (location : Position) :
    (p.captured c location).Alike (q.captured c' location) := by
  refine h.andThen ?_
  rcases p.result with (e | v) | v
  · simp only [hc]
    exact .refl _
  · exact .refl _
  · exact .refl _

end Process.Alike

structure Leaf.Alike (h : Process.Handlers) (l l' : Leaf) : Prop where
  contribution : l.contribution h = l'.contribution h
  errors : ∀ concurrent, l.errors h concurrent = l'.errors h concurrent
  accepted : l.IsAccepted h → l'.IsAccepted h
  unbroken : l.IsUnbroken h → l'.IsUnbroken h

namespace Leaf.Alike

variable {h : Process.Handlers}

theorem refl (l : Leaf) : l.Alike h l := ⟨rfl, fun _ => rfl, id, id⟩

theorem ofField {t : FieldTask} {selections : Option SelectionSet}
    (ht : (h.field t).Alike
      (h.field { t with cursor := { t.cursor with selections := selections } })) :
    (Leaf.field t).Alike h
      (.field { t with cursor := { t.cursor with selections := selections } }) := by
  have hvalue : (Leaf.field t).value h =
      (Leaf.field { t with cursor := { t.cursor with selections := selections } }).value h :=
    congrArg Ending.orNull ht.result
  refine ⟨congrArg (Prod.mk t.key) hvalue, (ht.captured rfl t.location).errors, fun ha hn => ?_,
    fun hu v => ?_⟩
  · rw [← hvalue]
    exact ha hn
  · rw [← ht.result]
    exact hu v

end Leaf.Alike

section Leaves

variable {h : Process.Handlers} {leaves leaves' : List Leaf}

theorem Leaf.map_contribution_eq (ha : List.Forall₂ (Leaf.Alike h) leaves leaves') :
    leaves.map (contribution h) = leaves'.map (contribution h) := by
  rw [← List.forall₂_eq_eq_eq, List.forall₂_map_left_iff, List.forall₂_map_right_iff]
  exact ha.imp fun _ _ hl => hl.contribution

theorem Leaf.flatMap_errors_eq (ha : List.Forall₂ (Leaf.Alike h) leaves leaves')
    (concurrent : Bool) :
    leaves.flatMap (errors h concurrent) = leaves'.flatMap (errors h concurrent) := by
  induction ha with
  | nil => rfl
  | cons hl _ ih => rw [List.flatMap_cons, List.flatMap_cons, hl.errors, ih]

theorem Leaf.accepted_of_alike (ha : List.Forall₂ (Leaf.Alike h) leaves leaves')
    (hl : ∀ l ∈ leaves, l.IsAccepted h ∧ l.IsUnbroken h) :
    ∀ l ∈ leaves', l.IsAccepted h ∧ l.IsUnbroken h := by
  induction ha with
  | nil => exact fun _ hm => nomatch hm
  | cons hfirst _ ih =>
    obtain ⟨hhead, hrest⟩ := List.forall_mem_cons.mp hl
    exact List.forall_mem_cons.mpr
      ⟨⟨hfirst.accepted hhead.1, hfirst.unbroken hhead.2⟩, ih hrest⟩

/-- Objects of the same leaves come out the same, if merging does not depend on the grouping. -/
theorem Process.Collects.alike {p q : Process} (hp : p.Collects h leaves)
    (hq : q.Collects h leaves') (ha : List.Forall₂ (Leaf.Alike h) leaves leaves')
    {shape : Text → Shape} (hshape : ∀ l ∈ leaves, (shape l.key).Admits (l.value h)) :
    p.Alike q := by
  obtain ⟨fields, hfields, heq⟩ := hp.result
  obtain ⟨fields', hfields', heq'⟩ := hq.result
  have hmap := Leaf.map_contribution_eq ha
  have hshape' : ∀ l ∈ leaves', (shape l.key).Admits (l.value h) := by
    intro l hl
    refine Leaf.admits_contributions hshape l.key (l.value h) ?_
    rw [hmap]
    exact List.mem_map_of_mem hl
  refine ⟨?_, fun concurrent => ?_⟩
  · rw [hfields, hfields', heq shape hshape, heq' shape hshape', hmap]
  · rw [hp.errors, hq.errors, Leaf.flatMap_errors_eq ha]

end Leaves

section Unfolding

variable {scope : Scope} {condition : Option Text} {x : Selection} {own : SelectionSet}
  {asked : Route → Question}

def Cursor.selecting (c : Cursor) (selections : SelectionSet) : Cursor :=
  { c with selections := some selections }

theorem itemsAlike_cons {refusesNull : Bool} {item : Option Instance}
    {rest : List (Option Instance)} {i : Nat} {c c' : Cursor}
    (hu : ∀ v, (processItems refusesNull (item :: rest) i c).result ≠ .error (.violation v))
    (hitem : (processItem item (c.atIndex i)).Alike (processItem item (c'.atIndex i)))
    (hrest : (∀ v, (processItems refusesNull rest (i + 1) c).result ≠ .error (.violation v)) →
      (processItems refusesNull rest (i + 1) c).Alike
        (processItems refusesNull rest (i + 1) c')) :
    (processItems refusesNull (item :: rest) i c).Alike
      (processItems refusesNull (item :: rest) i c') := by
  refine hitem.bind fun v hv => ?_
  have hnext := Process.unbroken_next hu hv
  cases hstop : refusesNull && v.isNull with
  | true =>
    simp only [if_true]
    exact .refl _
  | false =>
    simp only [hstop, Bool.false_eq_true, if_false] at hnext ⊢
    exact (hrest (Process.unbroken_of_bind hnext)).bind fun _ _ => .refl _

open Encounter

-- The recursion is on the tree of objects. What is selected below a field is planned only when the
-- field is resolved, so a fragment further down is replaced in the cursor of the reply.
mutual

theorem Entity.alike (hx : x.StandsFor scope condition own) : ∀ (e : Entity) (place : Place)
    (c : Cursor) (r : Route) {v : Value}, c.scope = scope →
      c.selections = some (place.fill [x]) → place.Matches scope condition e →
      (e.toInstance.process c).result = .ok v → e.IsCalm c → Follow asked (e.encounters c r) →
      (e.toInstance.process c).Alike (e.toInstance.process (c.selecting (place.fill own)))
  | .mk declared objectName field, place, c, r, v, hscope, hs, hm, hok, hcalm, hf => by
    cases hplan : (Entity.mk declared objectName field).plan? c with
    | none =>
      obtain ⟨violation, hv⟩ := Entity.process_of_plan?_none hplan
      rw [hv] at hok
      exact nomatch hok
    | some plan =>
      obtain ⟨selections, type, hselections, htype, hplanned⟩ := Entity.exists_of_plan? hplan
      obtain rfl : selections = place.fill [x] := Option.some.inj (hselections.symm.trans hs)
      have hunfolded := Entity.plan?_of_type (e := .mk declared objectName field)
        (c := c.selecting (place.fill own)) rfl htype
      generalize hplan' : Plan.ofSelectionSet _ (c.selecting (place.fill own)) _ = plan'
        at hunfolded
      have hmaps : plan.Maps (Leaf.Unfolds scope condition x own (.mk declared objectName field))
          plan' := by
        rw [hplanned, ← hplan']
        exact Place.maps hx (hscope ▸ htype) place hscope ⟨rfl, rfl⟩ hm
      rw [Entity.process_of_plan? hplan] at hok ⊢
      rw [Entity.process_of_plan? hunfolded]
      obtain ⟨haccepted, hreplies⟩ := Entity.isCalm_iff.mp hcalm
      rw [Entity.leaves_of_plan? hplan] at haccepted hreplies
      obtain ⟨-, hfollow⟩ := Entity.follow_of_plan? hplan hf
      obtain ⟨hcomplete, hunbroken, hcollects⟩ := Plan.collects_of_ok (fun _ _ => rfl) hok haccepted
      obtain ⟨hcomplete', hleaves⟩ := hmaps hcomplete
      have halike : List.Forall₂ (Leaf.Alike (Entity.mk declared objectName field).handlers)
          plan.leaves plan'.leaves := by
        have hmem := (List.forall₂_and_left _ _).mpr ⟨fun l (hl : l ∈ plan.leaves) => hl, hleaves⟩
        refine hmem.imp fun l l' ⟨hl, hunfolds⟩ => ?_
        -- either the field is the same, or the fragment is replaced below it
        cases hunfolds with
        | same => exact .refl l
        | @below t inside htscope hbelow hmatches =>
          exact .ofField (Reply.alike hx (field t.name (Keyed.get? t.arguments)) inside t.cursor _ 0
            [] htscope hbelow hmatches (hunbroken _ hl) (hreplies t hl) (hfollow t hl).2)
      have hcollects' := Plan.collects (fun _ _ => rfl) hcomplete' (Leaf.accepted_of_alike halike
        fun l hl => ⟨haccepted l hl, hunbroken l hl⟩) c.serial
      obtain ⟨shape, -, hshape⟩ := Entity.exists_shape hplan hf fun t ht =>
        Reply.admits _ t.cursor _ Shape.admitsItems_nil (hunbroken _ ht) (hreplies t ht)
          (hfollow t ht).2
      exact hcollects.alike hcollects' halike hshape

theorem Reply.alike (hx : x.StandsFor scope condition own) : ∀ (reply : Reply) (place : Place)
    (c : Cursor) (r : Route) (n : Nat) (parts : List Value), c.scope = scope →
      c.selections = some (place.fill [x]) →
      (∀ child ∈ reply.entities, place.Matches scope condition child) →
      (∀ v, ((reply.toAnswer parts).process c).result ≠ .error (.violation v)) → reply.IsCalm c →
      Follow asked (reply.encounters c r n) →
      ((reply.toAnswer parts).process c).Alike
        ((reply.toAnswer parts).process (c.selecting (place.fill own)))
  | .fill t, _, _, _, _, _, _, _, _, _, _, _ => .refl _
  | .fail _, _, _, _, _, _, _, _, _, _, _, _ => .refl _
  | .resolve none _, _, _, _, _, _, _, _, _, _, _, _ => .refl _
  | .resolve (some e) next, place, c, r, n, parts, hscope, hs, hm, hu, ⟨he, hnext⟩, hf => by
    obtain ⟨v, hv⟩ := Entity.exists_result (Process.unbroken_of_bind hu)
    have hpart := Entity.alike hx e place c _ hscope hs (hm e List.mem_cons_self) hv he hf.left
    have hm' : ∀ child ∈ next.entities, place.Matches scope condition child :=
      fun child hchild => hm child (List.mem_cons_of_mem _ hchild)
    exact hpart.bind fun w hw => Reply.alike hx next place c r (n + 1) (parts ++ [w]) hscope hs hm'
      (Process.unbroken_next hu hw) hnext hf.right
  | .resolveInto e next, place, c, r, n, parts, hscope, hs, hm, hu, ⟨he, hnext⟩, hf => by
    obtain ⟨v, hv⟩ :=
      Entity.exists_result (Process.unbroken_of_captured (Process.unbroken_of_bind hu))
    have hpart := Entity.alike hx e place c _ hscope hs (hm e List.mem_cons_self) hv he hf.left
    have hcaptured : ((e.toInstance.process c).captured c c.location).Alike
        ((e.toInstance.process (c.selecting (place.fill own))).captured
          (c.selecting (place.fill own)) c.location) := hpart.captured rfl c.location
    have hm' : ∀ child ∈ next.entities, place.Matches scope condition child :=
      fun child hchild => hm child (List.mem_cons_of_mem _ hchild)
    exact hcaptured.bind fun w hw => Reply.alike hx next place c r (n + 1) (parts ++ [w]) hscope hs
      hm' (Process.unbroken_next hu hw) hnext hf.right
  | .resolveList items next, place, c, r, n, parts, hscope, hs, hm, hu, ⟨hitems, hnext⟩, hf => by
    have htype : (c.selecting (place.fill own)).currentType = c.currentType := rfl
    rw [Reply.toAnswer, Answer.process] at hu
    rw [Reply.toAnswer, Answer.process, Answer.process, htype]
    cases hc : c.currentType.element? with
    | none => exact .refl _
    | some element =>
      simp only [hc] at hu
      have hparts := itemsAlike hx element.isNonNull items place 0 c _ hscope hs
        (fun e he => hm e (List.mem_append_left _ (by simpa using he)))
        (Process.unbroken_of_bind hu) (hitems element hc) hf.left
      have hm' : ∀ child ∈ next.entities, place.Matches scope condition child :=
        fun child hchild => hm child (List.mem_append_right _ hchild)
      exact hparts.bind fun w hw => Reply.alike hx next place c r (n + 1) (parts ++ [w]) hscope hs
        hm' (Process.unbroken_next hu hw) hnext hf.right

theorem itemsAlike (hx : x.StandsFor scope condition own) (refusesNull : Bool) :
    ∀ (items : List (Option Entity)) (place : Place) (i : Nat) (c : Cursor) (r : Route),
      c.scope = scope → c.selections = some (place.fill [x]) →
      (∀ e, some e ∈ items → place.Matches scope condition e) →
      (∀ v, (processItems refusesNull (toInstances items) i c).result ≠ .error (.violation v)) →
      ItemsAreCalm refusesNull items i c → Follow asked (itemEncounters items i c r) →
      (processItems refusesNull (toInstances items) i c).Alike
        (processItems refusesNull (toInstances items) i (c.selecting (place.fill own)))
  | [], _, _, _, _, _, _, _, _, _, _ => .refl _
  | none :: rest, place, i, c, r, hscope, hs, hm, hu, ⟨_, hrest⟩, hf =>
    itemsAlike_cons hu (.refl _) fun hu' => itemsAlike hx refusesNull rest place (i + 1) c r hscope
      hs (fun e he => hm e (List.mem_cons_of_mem _ he)) hu' hrest hf
  | some e :: rest, place, i, c, r, hscope, hs, hm, hu, ⟨_, he, hrest⟩, hf => by
    obtain ⟨v, hv⟩ :=
      Entity.exists_result (Process.unbroken_of_captured (Process.unbroken_of_bind hu))
    have hitem := Entity.alike hx e place (c.atIndex i) _ hscope hs (hm e List.mem_cons_self) hv he
      hf.left
    exact itemsAlike_cons hu (hitem.captured rfl (c.atIndex i).location) fun hu' =>
      itemsAlike hx refusesNull rest place (i + 1) c r hscope hs
        (fun e he => hm e (List.mem_cons_of_mem _ he)) hu' hrest hf.right

end

end Unfolding

/-- A fragment that is not excluded and whose condition every object meets that it is resolved on can
be replaced in place by what it holds. Where no null is refused and fields that meet ask the same,
resolving gives the same data and records the same errors, and whatever order sibling tasks run in,
the sorted errors are the same. -/
theorem Entity.resolve_selecting {σ : Type} (e : Entity) (place : Place) {c : Cursor}
    {x : Selection} {condition : Option Text} {own : SelectionSet}
    (hx : x.StandsFor c.scope condition own) (hs : c.selections = some (place.fill [x]))
    (hm : place.Matches c.scope condition e) {s s' : Effects σ} {data : Value}
    (hrun : ((e.toInstance.toNode : Node σ).resolve c).run.run s = (.ok data, s'))
    (hcalm : e.IsCalm c) (hagree : Encounter.Agree (e.encounters c [])) :
    ((e.toInstance.toNode : Node σ).resolve (c.selecting (place.fill own))).run.run s =
        (.ok data, s') ∧
      ∀ (concurrent : Bool) (errors errors' : List ExecutionError) (r r' : Ending),
        (e.toInstance.process c).Runs concurrent errors r →
        (e.toInstance.process (c.selecting (place.fill own))).Runs concurrent errors' r' →
        r = .ok data ∧ r' = .ok data ∧
          (ExecutionError.sort errors').map ExecutionError.key =
            (ExecutionError.sort errors).map ExecutionError.key ∧
          (ExecutionError.Distinguished errors →
            ExecutionError.sort errors' = ExecutionError.sort errors) := by
  obtain ⟨asked, hasked⟩ := Encounter.exists_follow hagree
  have hfollows := e.toInstance.follows (σ := σ) c rfl s
  have hok : (e.toInstance.process c).result = .ok data :=
    (congrArg Prod.fst hfollows).symm.trans (congrArg Prod.fst hrun)
  have halike := Entity.alike hx e place c [] rfl hs hm hok hcalm hasked
  refine ⟨?_, fun concurrent errors errors' r r' hr hr' => ?_⟩
  · have hfollows' := e.toInstance.follows (σ := σ) (c.selecting (place.fill own)) rfl s
    rw [← halike.result, ← halike.errors] at hfollows'
    exact hfollows'.trans (hfollows.symm.trans hrun)
  · obtain ⟨rfl, hperm⟩ := hr.preserves
    obtain ⟨rfl, hperm'⟩ := hr'.preserves
    have hsame : errors.Perm errors' := by
      rw [← halike.errors] at hperm'
      exact hperm.trans hperm'.symm
    refine ⟨hok, halike.result.symm.trans hok, ?_, fun hd => ?_⟩
    · exact (ExecutionError.map_key_sort_of_perm hsame).symm
    · exact (ExecutionError.sort_eq_of_perm hsame hd).symm

/-- The response to an operation stays as it is. -/
theorem Service.executeOperation_unfolded {σ : Type} {service : Service σ} {op : Operation}
    {type : TypeDef} {e : Entity} (hroot : service.root op = .ok (type, e.toInstance.toNode))
    (doc : Document) (settings : Settings) (session : Session σ) (place : Place) {x : Selection}
    {condition : Option Text} {own : SelectionSet}
    (hx : x.StandsFor (op.scope service.schema doc settings) condition own)
    (hs : op.selections = place.fill [x])
    (hm : place.Matches (op.scope service.schema doc settings) condition e) {output : Output}
    (hok : ((service.executeOperation doc op settings).run.run session).1 = .ok output)
    (hcalm : e.IsCalm (op.cursor (op.scope service.schema doc settings) type))
    (hagree : Encounter.Agree
      (e.encounters (op.cursor (op.scope service.schema doc settings) type) [])) :
    ((service.executeOperation doc { op with selections := place.fill own } settings).run.run
      session).1 = .ok output := by
  have hcursor : ({ op with selections := place.fill own } : Operation).cursor
      (op.scope service.schema doc settings) type =
        (op.cursor (op.scope service.schema doc settings) type).selecting (place.fill own) := by
    unfold Operation.cursor
    split <;> rfl
  have hscope : (op.cursor (op.scope service.schema doc settings) type).scope =
      op.scope service.schema doc settings := by
    unfold Operation.cursor
    split <;> rfl
  have hselections : (op.cursor (op.scope service.schema doc settings) type).selections =
      some (place.fill [x]) := by
    unfold Operation.cursor
    rw [← hs]
    split <;> rfl
  have hroot' : service.root { op with selections := place.fill own } =
      .ok (type, e.toInstance.toNode) := hroot
  rw [executeOperation_eq_toOutput hroot] at hok
  rw [executeOperation_eq_toOutput hroot']
  unfold Operation.process at hok ⊢
  rw [show Operation.scope { op with selections := place.fill own } = op.scope from rfl, hcursor]
  generalize op.cursor (op.scope service.schema doc settings) type = c at *
  have hcaptured : ∀ v, ((e.toInstance.process c).captured c c.location).result ≠
      .error (.violation v) := by
    intro v hv
    rw [hv] at hok
    exact nomatch hok
  obtain ⟨data, hdata⟩ := Entity.exists_result (Process.unbroken_of_captured hcaptured)
  obtain ⟨asked, hasked⟩ := Encounter.exists_follow hagree
  have halike : ((e.toInstance.process c).captured c c.location).Alike
      ((e.toInstance.process (c.selecting (place.fill own))).captured
        (c.selecting (place.fill own)) c.location) :=
    (Entity.alike hx e place c [] hscope hselections hm hdata hcalm hasked).captured rfl c.location
  rw [halike.result, halike.errors] at hok
  exact hok

namespace Halves

def part : ObjectDef :=
  ⟨lit "Part", none, [⟨lit "x", none, none, .named (lit "Int") true, .current⟩,
    ⟨lit "y", none, none, .named (lit "Int") true, .current⟩], []⟩

def query : ObjectDef :=
  ⟨lit "Query", none, [⟨lit "a", none, none, .named (lit "Part") true, .current⟩], []⟩

def schema : Schema :=
  ⟨[(lit "Int", .scalar Scalars.int), (lit "Part", .object part), (lit "Query", .object query)],
    lit "Query", none, none, [], none⟩

def fragment : Fragment :=
  ⟨.unlocated (lit "F"), .unlocated (lit "Query"), none,
    [.ofName (lit "a") (some [.ofName (lit "x") none])], .unlocated⟩

def spread : Selection := .spread ⟨.unlocated (lit "F"), none, .unlocated⟩

def place : Place := .here [] [.ofName (lit "a") (some [.ofName (lit "y") none])]

def cursor : Cursor :=
  .root ⟨schema, [fragment], [], none, false⟩ (place.fill [spread]) (.object query) .origin

def halves : Entity :=
  .mk (lit "Part") (lit "Part") fun name _ =>
    .fill (.scalar (.int (if name = lit "x" then 1 else 2)))

def root : Entity :=
  .mk (lit "Query") (lit "Query") fun _ _ => .resolve (some halves) (.fill (.part 0))

def data : Value :=
  .object [(lit "a", .object [(lit "x", .scalar (.int 1)), (lit "y", .scalar (.int 2))])]

theorem run_cursor : ((root.toInstance.toNode : Node Unit).resolve cursor).run.run ⟨[], ()⟩ =
    (.ok data, ⟨[], ()⟩) := rfl

def task (half : Text) : FieldTask :=
  ⟨lit "a", lit "a", [], ⟨cursor.scope, some [.ofName half none],
    .wrap true (.concrete (.object part)), cursor.path.field (lit "a") .origin,
    some ⟨⟨none, .unlocated (lit "a"), none, none, .unlocated⟩,
      ⟨lit "a", none, none, .named (lit "Part") true, .current⟩⟩, false⟩, true⟩

theorem leaves_cursor :
    root.leaves cursor = [.field (task (lit "x")), .field (task (lit "y"))] := rfl

theorem isCalm_halves (c : Cursor) : halves.IsCalm c := by
  rw [Entity.isCalm_iff]
  refine ⟨fun l _ _ => ?_, fun t _ => trivial⟩
  cases l <;> rfl

theorem isCalm : root.IsCalm cursor := by
  rw [Entity.isCalm_iff, leaves_cursor]
  refine ⟨?_, ?_⟩
  · intro l hl
    rcases List.mem_pair.mp hl with rfl | rfl
    · exact fun _ => rfl
    · exact fun _ => rfl
  · intro t ht
    rcases List.mem_pair.mp ht with ht | ht
    · obtain rfl := Leaf.field.inj ht
      exact ⟨isCalm_halves _, trivial⟩
    · obtain rfl := Leaf.field.inj ht
      exact ⟨isCalm_halves _, trivial⟩

theorem encounters_cursor : root.encounters cursor [] =
    [⟨[.key (lit "a")], .field (lit "a") (Keyed.get? [])⟩,
      ⟨[.key (lit "a"), .part 0, .key (lit "x")], .field (lit "x") (Keyed.get? [])⟩,
      ⟨[.key (lit "a")], .field (lit "a") (Keyed.get? [])⟩,
      ⟨[.key (lit "a"), .part 0, .key (lit "y")], .field (lit "y") (Keyed.get? [])⟩] := rfl

theorem agree : Encounter.Agree (root.encounters cursor []) := by
  rw [encounters_cursor]
  simp [Encounter.Agree, lit]

/-- Both halves are there, in order, whether the first is selected by a fragment or in its place. -/
theorem resolve_halves :
    ((root.toInstance.toNode : Node Unit).resolve (cursor.selecting (place.fill
      fragment.selections))).run.run ⟨[], ()⟩ = (.ok data, ⟨[], ()⟩) := by
  have hx : spread.StandsFor cursor.scope (some (lit "Query")) fragment.selections :=
    @Selection.StandsFor.spread cursor.scope _ fragment rfl rfl
  have hm : place.Matches cursor.scope (some (lit "Query")) root := by
    intro name hname
    obtain rfl := Option.some.inj hname
    rfl
  exact (Entity.resolve_selecting root place hx rfl hm run_cursor isCalm agree).1

end Halves

end GraphQL
