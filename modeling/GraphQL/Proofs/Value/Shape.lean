import GraphQL.Proofs.Value.Merge

/-! Shapes of values. The values that one resolver gives have one shape, whatever is selected on
them, and among values of one shape merging is associative. -/

namespace GraphQL

/-- Which lists and objects a value is built of. An object has fields of the given shapes, though
not all of them. -/
inductive Shape where
  | leaf
  | list (items : List Shape)
  | object (field : Text → Shape)

namespace Shape

mutual

def Admits : Shape → Value → Prop
  | .leaf, .null => True
  | .leaf, .scalar _ => True
  | .list shapes, .list items => AdmitsItems shapes items
  | .object field, .object fields =>
    (Keyed.keys fields).Nodup ∧ ∀ k v, (k, v) ∈ fields → (field k).Admits v
  | _, _ => False

def AdmitsItems : List Shape → List Value → Prop
  | [], [] => True
  | s :: shapes, v :: items => s.Admits v ∧ AdmitsItems shapes items
  | _, _ => False

end

/-- Fields of shapes, each under its own key. -/
def AdmitsFields (field : Text → Shape) (fields : Keyed Value) : Prop :=
  fields.keys.Nodup ∧ ∀ k v, (k, v) ∈ fields → (field k).Admits v

theorem admitsItems_nil : AdmitsItems [] [] := trivial

theorem admitsFields_nil (field : Text → Shape) : AdmitsFields field [] :=
  ⟨.nil, fun _ _ h => nomatch h⟩

theorem exists_items {shapes : List Shape} {v : Value} (h : (list shapes).Admits v) :
    ∃ items, v = .list items ∧ AdmitsItems shapes items := by
  cases v with
  | list items => exact ⟨items, rfl, h⟩
  | null => exact h.elim
  | scalar _ => exact h.elim
  | object _ => exact h.elim

theorem exists_fields {field : Text → Shape} {v : Value} (h : (object field).Admits v) :
    ∃ fields, v = .object fields ∧ AdmitsFields field fields := by
  cases v with
  | object fields => exact ⟨fields, rfl, h⟩
  | null => exact h.elim
  | scalar _ => exact h.elim
  | list _ => exact h.elim

theorem AdmitsItems.concat : ∀ {shapes : List Shape} {items : List Value} {s : Shape} {v : Value},
    AdmitsItems shapes items → s.Admits v → AdmitsItems (shapes ++ [s]) (items ++ [v])
  | [], [], _, _, _, hv => ⟨hv, trivial⟩
  | _ :: _, _ :: _, _, _, ⟨hw, h⟩, hv => ⟨hw, h.concat hv⟩

theorem AdmitsItems.getD : ∀ {shapes : List Shape} {items : List Value},
    AdmitsItems shapes items → ∀ n : Nat, (shapes[n]?.getD leaf).Admits (items[n]?.getD .null)
  | [], [], _, _ => trivial
  | _ :: _, _ :: _, ⟨hv, _⟩, 0 => hv
  | _ :: _, _ :: _, ⟨_, h⟩, n + 1 => h.getD n

theorem AdmitsFields.put {field : Text → Shape} {fields : Keyed Value} {s : Shape} {v : Value}
    (h : AdmitsFields field fields) (key : Text) (hv : s.Admits v) :
    AdmitsFields (fun k => if k = key then s else field k) (fields.put key v) := by
  refine ⟨Keyed.nodup_keys_put h.1 key v, fun k w hm => ?_⟩
  rcases Keyed.eq_or_mem_of_mem_put h.1 hm with ⟨rfl, rfl⟩ | ⟨hne, hm⟩
  · simpa using hv
  · simpa [hne] using h.2 k w hm

theorem mergeInto_of_leaf {x : Value} (hx : leaf.Admits x) (y : Value) :
    Value.mergeInto y x = x := by
  cases x with
  | null => cases y <;> rfl
  | scalar _ => cases y <;> rfl
  | list _ => exact hx.elim
  | object _ => exact hx.elim

/-- Merging at an index of a list: only objects merge. -/
def mergeItem : Shape → (source target : Value) → Value
  | .object _, source, target => Value.mergeInto source target
  | _, _, target => target

theorem mergeItems_cons {s : Shape} {x y : Value} (hx : s.Admits x) (hy : s.Admits y)
    (xs ys : List Value) :
    Value.mergeItems (y :: ys) (x :: xs) = s.mergeItem y x :: Value.mergeItems ys xs := by
  cases s with
  | leaf =>
    cases x with
    | null => cases y <;> rfl
    | scalar _ => cases y <;> rfl
    | list _ => exact hx.elim
    | object _ => exact hx.elim
  | list shapes =>
    obtain ⟨_, rfl, -⟩ := exists_items hx
    cases y <;> rfl
  | object field =>
    obtain ⟨_, rfl, -⟩ := exists_fields hx
    obtain ⟨_, rfl, -⟩ := exists_fields hy
    rfl

theorem admits_mergeItem {s : Shape} {x y : Value} (hx : s.Admits x)
    (hmerge : s.Admits (Value.mergeInto y x)) : s.Admits (s.mergeItem y x) := by
  cases s with
  | leaf => exact hx
  | list _ => exact hx
  | object _ => exact hmerge

section Fields

variable {field : Text → Shape}

theorem AdmitsFields.mergeKey {target : Keyed Value} {k : Text} {v : Value}
    (ht : AdmitsFields field target) (hv : (field k).Admits v)
    (hmerge : ∀ x, (field k).Admits x → (field k).Admits (Value.mergeInto v x)) :
    AdmitsFields field (Value.mergeKey target k v) := by
  refine ⟨Value.nodup_keys_mergeKey ht.1, fun i a h => ?_⟩
  rcases Value.mem_mergeKey h with h | ⟨rfl, rfl | ⟨b, hb, rfl⟩⟩
  · exact ht.2 i a h
  · exact hv
  · exact hmerge b (ht.2 i b hb)

theorem AdmitsFields.mergeFields
    (hmerge : ∀ k x y, (field k).Admits x → (field k).Admits y →
      (field k).Admits (Value.mergeInto y x))
    {source target : Keyed Value} (hs : ∀ k v, (k, v) ∈ source → (field k).Admits v)
    (ht : AdmitsFields field target) : AdmitsFields field (Value.mergeFields source target) := by
  induction source generalizing target with
  | nil => rwa [Value.mergeFields]
  | cons entry source ih =>
    obtain ⟨k, v⟩ := entry
    have hv : (field k).Admits v := hs k v (by simp)
    rw [Value.mergeFields_cons]
    exact ih (fun i a h => hs i a (List.mem_cons_of_mem _ h))
      (ht.mergeKey hv fun x hx => hmerge k x v hx hv)

theorem mergeFields_mergeFields
    (hmerge : ∀ k x y, (field k).Admits x → (field k).Admits y →
      (field k).Admits (Value.mergeInto y x))
    (hassoc : ∀ k x y z, (field k).Admits x → (field k).Admits y → (field k).Admits z →
      Value.mergeInto (Value.mergeInto z y) x = Value.mergeInto z (Value.mergeInto y x))
    {entries source target : Keyed Value} (he : ∀ k v, (k, v) ∈ entries → (field k).Admits v)
    (hs : AdmitsFields field source) (ht : AdmitsFields field target) :
    Value.mergeFields (Value.mergeFields entries source) target =
      Value.mergeFields entries (Value.mergeFields source target) := by
  induction entries generalizing source with
  | nil => rw [Value.mergeFields, Value.mergeFields]
  | cons entry entries ih =>
    obtain ⟨k, v⟩ := entry
    have hv : (field k).Admits v := he k v (by simp)
    have hstep : Value.mergeFields (Value.mergeKey source k v) target =
        Value.mergeKey (Value.mergeFields source target) k v :=
      Value.mergeFields_mergeKey hs.1 fun y x hy hx =>
        hassoc k x y v (ht.2 k x hx) (hs.2 k y hy) hv
    rw [Value.mergeFields_cons, Value.mergeFields_cons,
      ih (fun i a h => he i a (List.mem_cons_of_mem _ h))
        (hs.mergeKey hv fun x hx => hmerge k x v hx hv), hstep]

end Fields

mutual

theorem admits_mergeInto : ∀ (s : Shape) {x y : Value}, s.Admits x → s.Admits y →
    s.Admits (Value.mergeInto y x)
  | .leaf, x, y, hx, _ => by rwa [mergeInto_of_leaf hx y]
  | .list shapes, x, y, hx, hy => by
    obtain ⟨xs, rfl, hxs⟩ := exists_items hx
    obtain ⟨ys, rfl, hys⟩ := exists_items hy
    exact admitsItems_mergeItems shapes hxs hys
  | .object field, x, y, hx, hy => by
    obtain ⟨xs, rfl, hxs⟩ := exists_fields hx
    obtain ⟨ys, rfl, hys⟩ := exists_fields hy
    exact hxs.mergeFields (fun k _ _ => admits_mergeInto (field k)) hys.2

theorem admitsItems_mergeItems : ∀ (shapes : List Shape) {xs ys : List Value},
    AdmitsItems shapes xs → AdmitsItems shapes ys →
    AdmitsItems shapes (Value.mergeItems ys xs)
  | [], [], [], _, _ => trivial
  | s :: shapes, x :: xs, y :: ys, ⟨hx, hxs⟩, ⟨hy, hys⟩ => by
    rw [mergeItems_cons hx hy]
    have hmerge : s.Admits (Value.mergeInto y x) := admits_mergeInto s hx hy
    exact ⟨admits_mergeItem hx hmerge, admitsItems_mergeItems shapes hxs hys⟩

end

mutual

/-- Among values of one shape merging is associative. -/
theorem mergeInto_assoc : ∀ (s : Shape) {x y z : Value}, s.Admits x → s.Admits y → s.Admits z →
    Value.mergeInto (Value.mergeInto z y) x = Value.mergeInto z (Value.mergeInto y x)
  | .leaf, x, y, z, hx, _, _ => by
    rw [mergeInto_of_leaf hx y, mergeInto_of_leaf hx z, mergeInto_of_leaf hx _]
  | .list shapes, x, y, z, hx, hy, hz => by
    obtain ⟨xs, rfl, hxs⟩ := exists_items hx
    obtain ⟨ys, rfl, hys⟩ := exists_items hy
    obtain ⟨zs, rfl, hzs⟩ := exists_items hz
    exact congrArg Value.list (mergeItems_assoc shapes hxs hys hzs)
  | .object field, x, y, z, hx, hy, hz => by
    obtain ⟨xs, rfl, hxs⟩ := exists_fields hx
    obtain ⟨ys, rfl, hys⟩ := exists_fields hy
    obtain ⟨zs, rfl, hzs⟩ := exists_fields hz
    exact congrArg Value.object (mergeFields_mergeFields (fun k _ _ => admits_mergeInto (field k))
      (fun k _ _ _ => mergeInto_assoc (field k)) hzs.2 hys hxs)

theorem mergeItems_assoc : ∀ (shapes : List Shape) {xs ys zs : List Value},
    AdmitsItems shapes xs → AdmitsItems shapes ys → AdmitsItems shapes zs →
    Value.mergeItems (Value.mergeItems zs ys) xs = Value.mergeItems zs (Value.mergeItems ys xs)
  | [], [], [], [], _, _, _ => rfl
  | s :: shapes, x :: xs, y :: ys, z :: zs, ⟨hx, hxs⟩, ⟨hy, hys⟩, ⟨hz, hzs⟩ => by
    have hyx : s.Admits (s.mergeItem y x) := admits_mergeItem hx (admits_mergeInto s hx hy)
    have hzy : s.Admits (s.mergeItem z y) := admits_mergeItem hy (admits_mergeInto s hy hz)
    have hhead : s.mergeItem (s.mergeItem z y) x = s.mergeItem z (s.mergeItem y x) := by
      cases s with
      | leaf => rfl
      | list _ => rfl
      | object field => exact mergeInto_assoc (.object field) hx hy hz
    rw [mergeItems_cons hy hz, mergeItems_cons hx hzy, mergeItems_cons hx hy,
      mergeItems_cons hyx hz, hhead, mergeItems_assoc shapes hxs hys hzs]

end

section Fields

variable {field : Text → Shape} {source target : Keyed Value}

theorem AdmitsFields.merge (hs : ∀ k v, (k, v) ∈ source → (field k).Admits v)
    (ht : AdmitsFields field target) : AdmitsFields field (Value.mergeFields source target) :=
  ht.mergeFields (fun k _ _ => admits_mergeInto (field k)) hs

/-- Fields merged among themselves first are merged as if one after another. -/
theorem mergeFields_mergeFields_nil (hs : ∀ k v, (k, v) ∈ source → (field k).Admits v)
    (ht : AdmitsFields field target) :
    Value.mergeFields (Value.mergeFields source []) target = Value.mergeFields source target := by
  rw [mergeFields_mergeFields (fun k _ _ => admits_mergeInto (field k))
    (fun k _ _ _ => mergeInto_assoc (field k)) hs (admitsFields_nil field) ht, Value.mergeFields]

end Fields

end Shape

end GraphQL
