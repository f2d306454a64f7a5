import GraphQL.Proofs.Execution.Entity

/-! Runs in which no null is refused and fields that meet in the response ask the same. Then the
value of an object has a shape that the questions fix, whatever of it is selected. -/

namespace GraphQL

inductive Question where
  | typename
  | field (name : Text) (argument : Text → Option InputValue)

/-- A turn on the way to a field of the response: a response key, a value that a resolver has
resolved, counted from zero, or an item of a list. -/
inductive Turn where
  | key (key : Text)
  | part (n : Nat)
  | item (i : Nat)
deriving DecidableEq

/-- The way to a field of the response. -/
abbrev Route := List Turn

/-- A field that a run comes to. -/
structure Encounter where
  route : Route
  question : Question

/-- Fields that meet ask the same. -/
def Encounter.Agree (encounters : List Encounter) : Prop :=
  ∀ a ∈ encounters, ∀ b ∈ encounters, a.route = b.route → a.question = b.question

/-- What each field asks is as told for its place in the response. -/
def Encounter.Follow (asked : Route → Question) (encounters : List Encounter) : Prop :=
  ∀ a ∈ encounters, asked a.route = a.question

mutual

/-- The fields that a run on an object comes to. -/
def Entity.encounters : Entity → Cursor → Route → List Encounter
  | .mk declared objectName field, c, r =>
    ((Entity.mk declared objectName field).leaves c).flatMap fun
      | .typename key => [⟨r ++ [.key key], .typename⟩]
      | .field t =>
        ⟨r ++ [.key t.key], .field t.name (Keyed.get? t.arguments)⟩ ::
          (field t.name (Keyed.get? t.arguments)).encounters t.cursor (r ++ [.key t.key]) 0

def Reply.encounters : Reply → Cursor → Route → Nat → List Encounter
  | .fill _, _, _, _ => []
  | .fail _, _, _, _ => []
  | .resolve none _, _, _, _ => []
  | .resolve (some e) next, c, r, n =>
    e.encounters c (r ++ [.part n]) ++ next.encounters c r (n + 1)
  | .resolveInto e next, c, r, n =>
    e.encounters c (r ++ [.part n]) ++ next.encounters c r (n + 1)
  | .resolveList items next, c, r, n =>
    itemEncounters items 0 c (r ++ [.part n]) ++ next.encounters c r (n + 1)

def itemEncounters : List (Option Entity) → Nat → Cursor → Route → List Encounter
  | [], _, _, _ => []
  | none :: rest, i, c, r => itemEncounters rest (i + 1) c r
  | some e :: rest, i, c, r =>
    e.encounters (c.atIndex i) (r ++ [.item i]) ++ itemEncounters rest (i + 1) c r

end

mutual

/-- No place that refuses null is null. -/
def Entity.IsCalm : Entity → Cursor → Prop
  | .mk declared objectName field, c =>
    ∀ l ∈ (Entity.mk declared objectName field).leaves c,
      l.IsAccepted (Entity.mk declared objectName field).handlers ∧
        match l with
        | .typename _ => True
        | .field t => (field t.name (Keyed.get? t.arguments)).IsCalm t.cursor

def Reply.IsCalm : Reply → Cursor → Prop
  | .fill _, _ => True
  | .fail _, _ => True
  | .resolve none _, _ => True
  | .resolve (some e) next, c => e.IsCalm c ∧ next.IsCalm c
  | .resolveInto e next, c => e.IsCalm c ∧ next.IsCalm c
  | .resolveList items next, c =>
    (∀ element, c.currentType.element? = some element →
      ItemsAreCalm element.isNonNull items 0 c) ∧ next.IsCalm c

def ItemsAreCalm (refusesNull : Bool) : List (Option Entity) → Nat → Cursor → Prop
  | [], _, _ => True
  | none :: rest, i, c => refusesNull = false ∧ ItemsAreCalm refusesNull rest (i + 1) c
  | some e :: rest, i, c =>
    (refusesNull = true → (e.toInstance.process (c.atIndex i)).result ≠ .ok .null) ∧
      e.IsCalm (c.atIndex i) ∧ ItemsAreCalm refusesNull rest (i + 1) c

end

namespace Template

mutual

def shape (parts : List Shape) : Template → Shape
  | null => .leaf
  | scalar _ => .leaf
  | list items => .list (itemShapes parts items)
  | object fields => .object (fieldShapes parts fields fun _ => .leaf)
  | part n => parts[n]?.getD .leaf

def itemShapes (parts : List Shape) : List Template → List Shape
  | [] => []
  | t :: rest => t.shape parts :: itemShapes parts rest

def fieldShapes (parts : List Shape) : List (Text × Template) → (Text → Shape) → Text → Shape
  | [], field => field
  | (key, t) :: rest, field =>
    fieldShapes parts rest fun k => if k = key then t.shape parts else field k

end

mutual

theorem admits_fill {shapes : List Shape} {parts : List Value}
    (h : Shape.AdmitsItems shapes parts) : ∀ t : Template, (t.shape shapes).Admits (t.fill parts)
  | null => trivial
  | scalar _ => trivial
  | list items => admits_fillItems h items
  | object fields => admits_fillFields h fields (Shape.admitsFields_nil _)
  | part n => h.getD n

theorem admits_fillItems {shapes : List Shape} {parts : List Value}
    (h : Shape.AdmitsItems shapes parts) : ∀ items : List Template,
      Shape.AdmitsItems (itemShapes shapes items) (fillItems parts items)
  | [] => trivial
  | t :: rest => ⟨admits_fill h t, admits_fillItems h rest⟩

theorem admits_fillFields {shapes : List Shape} {parts : List Value}
    (h : Shape.AdmitsItems shapes parts) : ∀ (fields : List (Text × Template))
      {field : Text → Shape} {filled : Keyed Value}, Shape.AdmitsFields field filled →
      Shape.AdmitsFields (fieldShapes shapes fields field) (fillFields parts fields filled)
  | [], _, _, hf => hf
  | (key, t) :: rest, _, _, hf => admits_fillFields h rest (hf.put key (admits_fill h t))

end

end Template

mutual

/-- The shape of what is resolved on an object, by what is asked of it. -/
def Entity.shape (asked : Route → Question) : Entity → Route → Shape
  | .mk _ _ field, r => .object fun key =>
    match asked (r ++ [.key key]) with
    | .typename => .leaf
    | .field name argument => (field name argument).shape asked (r ++ [.key key]) []

def Reply.shape (asked : Route → Question) : Reply → Route → List Shape → Shape
  | .fill t, _, parts => t.shape parts
  | .fail _, _, _ => .leaf
  | .resolve none _, _, _ => .leaf
  | .resolve (some e) next, r, parts =>
    next.shape asked r (parts ++ [e.shape asked (r ++ [.part parts.length])])
  | .resolveInto e next, r, parts =>
    next.shape asked r (parts ++ [e.shape asked (r ++ [.part parts.length])])
  | .resolveList items next, r, parts =>
    next.shape asked r (parts ++ [.list (itemShapes asked items 0 (r ++ [.part parts.length]))])

def itemShapes (asked : Route → Question) : List (Option Entity) → Nat → Route → List Shape
  | [], _, _ => []
  | none :: rest, i, r => .leaf :: itemShapes asked rest (i + 1) r
  | some e :: rest, i, r => e.shape asked (r ++ [.item i]) :: itemShapes asked rest (i + 1) r

end

namespace Encounter

variable {asked : Route → Question} {xs ys : List Encounter}

theorem Follow.left (h : Follow asked (xs ++ ys)) : Follow asked xs :=
  fun a ha => h a (List.mem_append_left _ ha)

theorem Follow.right (h : Follow asked (xs ++ ys)) : Follow asked ys :=
  fun a ha => h a (List.mem_append_right _ ha)

/-- Where fields that meet ask the same, it can be told what is asked at each place. -/
theorem exists_follow (h : Agree xs) : ∃ asked, Follow asked xs := by
  refine ⟨fun r => ((xs.find? (·.route = r)).map (·.question)).getD .typename, fun a ha => ?_⟩
  cases hb : xs.find? (·.route = a.route) with
  | none => exact absurd (List.find?_eq_none.mp hb a ha) (by simp)
  | some b =>
    have hroute : b.route = a.route := by simpa using List.find?_some hb
    simpa [hb] using h b (List.mem_of_find?_eq_some hb) a ha hroute

end Encounter

theorem Value.isNull_eq_false {v : Value} (h : v ≠ .null) : v.isNull = false := by
  cases v with
  | null => exact absurd rfl h
  | _ => rfl

section Admits

variable {asked : Route → Question}

open Encounter

theorem Entity.leaves_of_plan? {e : Entity} {c : Cursor} {plan : Plan}
    (h : e.plan? c = some plan) : e.leaves c = plan.leaves := by
  rw [leaves, h]

theorem Entity.isCalm_iff {e : Entity} {c : Cursor} :
    e.IsCalm c ↔ (∀ l ∈ e.leaves c, l.IsAccepted e.handlers) ∧
      ∀ t, .field t ∈ e.leaves c → (e.reply t.name t.arguments).IsCalm t.cursor := by
  obtain ⟨declared, objectName, field⟩ := e
  rw [IsCalm]
  refine ⟨fun h => ⟨fun l hl => (h l hl).1, fun t ht => (h (.field t) ht).2⟩,
    fun ⟨ha, hr⟩ l hl => ⟨ha l hl, ?_⟩⟩
  cases l with
  | typename key => trivial
  | field t => exact hr t hl

theorem Entity.follow_of_plan? {e : Entity} {c : Cursor} {r : Route} {plan : Plan}
    (h : e.plan? c = some plan) (hf : Follow asked (e.encounters c r)) :
    (∀ key, .typename key ∈ plan.leaves → asked (r ++ [.key key]) = .typename) ∧
      ∀ t, .field t ∈ plan.leaves →
        asked (r ++ [.key t.key]) = .field t.name (Keyed.get? t.arguments) ∧
          Follow asked ((e.reply t.name t.arguments).encounters t.cursor (r ++ [.key t.key]) 0) := by
  obtain ⟨declared, objectName, field⟩ := e
  rw [encounters, leaves_of_plan? h] at hf
  refine ⟨fun key hl => ?_, fun t hl => ?_⟩
  · exact hf ⟨_, .typename⟩ (List.mem_flatMap.mpr ⟨_, hl, by simp⟩)
  · have hmet : Follow asked (_ :: (field t.name (Keyed.get? t.arguments)).encounters t.cursor
        (r ++ [.key t.key]) 0) := fun a ha => hf a (List.mem_flatMap.mpr ⟨_, hl, ha⟩)
    exact ⟨hmet _ List.mem_cons_self, fun a ha => hmet a (List.mem_cons_of_mem _ ha)⟩

/-- The shapes of the selected fields are those that the questions fix. -/
theorem Entity.exists_shape {e : Entity} {c : Cursor} {r : Route} {plan : Plan}
    (h : e.plan? c = some plan) (hf : Follow asked (e.encounters c r))
    (hreply : ∀ t, .field t ∈ plan.leaves →
      ((e.reply t.name t.arguments).shape asked (r ++ [.key t.key]) []).Admits
        ((Leaf.field t).value e.handlers)) :
    ∃ shape, e.shape asked r = .object shape ∧
      ∀ l ∈ plan.leaves, (shape l.key).Admits (l.value e.handlers) := by
  obtain ⟨hkeys, hfields⟩ := follow_of_plan? h hf
  obtain ⟨declared, objectName, field⟩ := e
  refine ⟨_, rfl, fun l hl => ?_⟩
  cases l with
  | typename key =>
    simp only [Leaf.key, hkeys key hl]
    trivial
  | field t =>
    simp only [Leaf.key, (hfields t hl).1]
    exact hreply t hl

-- The recursion is on the tree of objects; a reply carries the shapes of the parts resolved so far.
mutual

/-- What is resolved on an object has the shape that the questions fix. -/
theorem Entity.admits : ∀ (e : Entity) (c : Cursor) (r : Route) {v : Value},
    (e.toInstance.process c).result = .ok v → e.IsCalm c → Follow asked (e.encounters c r) →
      (e.shape asked r).Admits v
  | .mk declared objectName field, c, r, v, hok, hcalm, hf => by
    cases hplan : (Entity.mk declared objectName field).plan? c with
    | none =>
      obtain ⟨violation, hv⟩ := Entity.process_of_plan?_none hplan
      rw [hv] at hok
      exact nomatch hok
    | some plan =>
      rw [Entity.process_of_plan? hplan] at hok
      obtain ⟨haccepted, hreplies⟩ := Entity.isCalm_iff.mp hcalm
      rw [Entity.leaves_of_plan? hplan] at haccepted hreplies
      obtain ⟨-, hfollow⟩ := Entity.follow_of_plan? hplan hf
      obtain ⟨-, hunbroken, hcollects⟩ := Plan.collects_of_ok (fun _ _ => rfl) hok haccepted
      obtain ⟨fields, hresult, hfields⟩ := hcollects.result
      obtain rfl : v = .object fields := Except.ok.inj (hok.symm.trans hresult)
      obtain ⟨shape, hshape, hleaves⟩ := Entity.exists_shape hplan hf fun t ht =>
        Reply.admits (field t.name (Keyed.get? t.arguments)) t.cursor _ Shape.admitsItems_nil
          (hunbroken _ ht) (hreplies t ht) (hfollow t ht).2
      rw [hshape, hfields shape hleaves]
      exact (Shape.admitsFields_nil shape).merge (Leaf.admits_contributions hleaves)

theorem Reply.admits : ∀ (reply : Reply) (c : Cursor) (r : Route) {shapes : List Shape}
    {parts : List Value}, Shape.AdmitsItems shapes parts →
      (∀ v, ((reply.toAnswer parts).process c).result ≠ .error (.violation v)) → reply.IsCalm c →
      Follow asked (reply.encounters c r shapes.length) →
      (reply.shape asked r shapes).Admits ((reply.toAnswer parts).process c).result.orNull
  | .fill t, _, _, _, _, hparts, _, _, _ => t.admits_fill hparts
  | .fail _, _, _, _, _, _, _, _, _ => trivial
  | .resolve none _, _, _, _, _, _, _, _, _ => trivial
  | .resolve (some e) next, c, r, shapes, parts, hparts, hu, ⟨he, hnext⟩, hf => by
    obtain ⟨v, hv⟩ := Entity.exists_result (Process.unbroken_of_bind hu)
    have hpart := Entity.admits e c _ hv he hf.left
    have hbind := Process.result_bind_of_ok hv fun v => (next.toAnswer (parts ++ [v])).process c
    rw [Reply.toAnswer, Answer.process, toInstance?, processPresent, hbind] at hu ⊢
    refine Reply.admits next c r (hparts.concat hpart) hu hnext ?_
    rw [List.length_append]
    exact hf.right
  | .resolveInto e next, c, r, shapes, parts, hparts, hu, ⟨he, hnext⟩, hf => by
    have hcaptured := Process.unbroken_of_bind hu
    have hue := Process.unbroken_of_captured hcaptured
    obtain ⟨v, hv⟩ := Entity.exists_result hue
    have hpart := Entity.admits e c _ hv he hf.left
    have hresult : ((e.toInstance.process c).captured c c.location).result = .ok v := by
      rw [Process.result_captured hue, hv]
      rfl
    have hbind := Process.result_bind_of_ok hresult
      fun v => (next.toAnswer (parts ++ [v])).process c
    rw [Reply.toAnswer, Answer.process, hbind] at hu ⊢
    refine Reply.admits next c r (hparts.concat hpart) hu hnext ?_
    rw [List.length_append]
    exact hf.right
  | .resolveList items next, c, r, shapes, parts, hparts, hu, ⟨hitems, hnext⟩, hf => by
    rw [Reply.toAnswer, Answer.process] at hu ⊢
    cases hc : c.currentType.element? with
    | none =>
      rw [hc] at hu
      exact absurd rfl (hu _)
    | some element =>
      simp only [hc] at hu ⊢
      obtain ⟨vs, hvs, hpart⟩ := itemsAdmit element.isNonNull items 0 c _
        (Process.unbroken_of_bind hu) (hitems element hc) hf.left
      have hbind := Process.result_bind_of_ok hvs
        fun v => (next.toAnswer (parts ++ [v])).process c
      rw [hbind] at hu ⊢
      refine Reply.admits next c r (hparts.concat (s := .list _) hpart) hu hnext ?_
      rw [List.length_append]
      exact hf.right

theorem itemsAdmit (refusesNull : Bool) : ∀ (items : List (Option Entity)) (i : Nat) (c : Cursor)
    (r : Route), (∀ v, (processItems refusesNull (toInstances items) i c).result ≠
        .error (.violation v)) → ItemsAreCalm refusesNull items i c →
      Follow asked (itemEncounters items i c r) →
      ∃ vs, (processItems refusesNull (toInstances items) i c).result = .ok (.list vs) ∧
        Shape.AdmitsItems (itemShapes asked items i r) vs
  | [], _, _, _, _, _, _ => ⟨[], rfl, trivial⟩
  | none :: rest, i, c, r, hu, ⟨hnull, hrest⟩, hf => by
    have hcons : (processItems refusesNull (toInstances (none :: rest)) i c) =
        (processItems refusesNull (toInstances rest) (i + 1) c).bind fun items =>
          .finish (.ok (Value.consItem .null items)) := by
      subst hnull
      rfl
    rw [hcons] at hu ⊢
    obtain ⟨vs, hvs, hadmits⟩ := itemsAdmit refusesNull rest (i + 1) c r
      (Process.unbroken_of_bind hu) hrest hf
    exact ⟨.null :: vs, Process.result_bind_of_ok hvs _, trivial, hadmits⟩
  | some e :: rest, i, c, r, hu, ⟨hnull, he, hrest⟩, hf => by
    have hue := Process.unbroken_of_captured (Process.unbroken_of_bind hu)
    obtain ⟨v, hv⟩ := Entity.exists_result hue
    have hitem := Entity.admits e _ _ hv he hf.left
    have hresult : (processItem (some e.toInstance) (c.atIndex i)).result = .ok v := by
      rw [processItem, Process.result_captured hue, hv]
      rfl
    have hkept : (refusesNull && v.isNull) = false := by
      cases refusesNull with
      | false => rfl
      | true => exact Value.isNull_eq_false fun hn => hnull rfl (hn ▸ hv)
    have hcons : (processItems refusesNull (toInstances (some e :: rest)) i c).result =
        ((processItems refusesNull (toInstances rest) (i + 1) c).bind fun items =>
          .finish (.ok (v.consItem items))).result := by
      rw [toInstances, toInstance?, processItems, Process.result_bind_of_ok hresult, hkept]
      rfl
    rw [hcons] at hu ⊢
    obtain ⟨vs, hvs, hadmits⟩ := itemsAdmit refusesNull rest (i + 1) c r
      (Process.unbroken_of_bind hu) hrest hf.right
    exact ⟨v :: vs, Process.result_bind_of_ok hvs _, hitem, hadmits⟩

end

end Admits

end GraphQL
