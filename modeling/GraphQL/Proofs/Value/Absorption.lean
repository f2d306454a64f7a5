import GraphQL.Proofs.Value.Paths

/-! To merge a value a second time changes nothing: a value has been absorbed once it is merged into
another, at every depth, what was ignored included. -/

namespace GraphQL

namespace Value

section Distinct

theorem isDistinct_mergeItem {source target : Value} (ht : target.IsDistinct)
    (hmerged : (mergeInto source target).IsDistinct) : (mergeItem source target).IsDistinct := by
  rcases mergeItem_cases source target with h | h
  · rwa [h]
  · rwa [h]

theorem fieldsAreDistinct_mergeKey {target : Keyed Value} {k : Text} {v : Value}
    (ht : FieldsAreDistinct target) (hv : v.IsDistinct)
    (hmerged : ∀ x : Value, x.IsDistinct → (mergeInto v x).IsDistinct) :
    FieldsAreDistinct (mergeKey target k v) := by
  rw [fieldsAreDistinct_iff] at ht ⊢
  intro i a ha
  rcases mem_mergeKey ha with ha | ⟨rfl, rfl | ⟨b, hb, rfl⟩⟩
  · exact ht i a ha
  · exact hv
  · exact hmerged b (ht _ b hb)

mutual

theorem isDistinct_mergeInto : ∀ {source target : Value}, source.IsDistinct → target.IsDistinct →
    (mergeInto source target).IsDistinct
  | object _, object _, hs, ht =>
    ⟨nodup_keys_mergeFields ht.1, fieldsAreDistinct_mergeFields hs.2 ht.2⟩
  | list _, list _, hs, ht => areDistinct_mergeItems hs ht
  | null, _, _, ht | scalar _, _, _, ht => ht
  | list _, null, _, ht | list _, scalar _, _, ht | list _, object _, _, ht => ht
  | object _, null, _, ht | object _, scalar _, _, ht | object _, list _, _, ht => ht

theorem fieldsAreDistinct_mergeFields : ∀ {source target : Keyed Value}, FieldsAreDistinct source →
    FieldsAreDistinct target → FieldsAreDistinct (mergeFields source target)
  | [], _, _, ht => ht
  | (_, _) :: _, _, hs, ht => by
    rw [mergeFields_cons]
    exact fieldsAreDistinct_mergeFields hs.2
      (fieldsAreDistinct_mergeKey ht hs.1 fun _ => isDistinct_mergeInto hs.1)

theorem areDistinct_mergeItems : ∀ {sources targets : List Value}, AreDistinct sources →
    AreDistinct targets → AreDistinct (mergeItems sources targets)
  | [], _, _, ht => by rwa [mergeItems_nil_left]
  | _ :: _, [], _, _ => by rw [mergeItems_nil_right]; trivial
  | _ :: _, _ :: _, hs, ht => by
    rw [mergeItems_cons]
    exact ⟨isDistinct_mergeItem ht.1 (isDistinct_mergeInto hs.1 ht.1),
      areDistinct_mergeItems hs.2 ht.2⟩

end

end Distinct

section Absorbed

theorem mergeItem_eq_self {v : Value} (h : mergeInto v v = v) : mergeItem v v = v :=
  (mergeItem_cases v v).elim (·.trans h) id

/-- A field is absorbed if it is among those that it is merged into. -/
theorem mergeKey_eq_self {target : Keyed Value} {k : Text} {v : Value} (ht : target.keys.Nodup)
    (hmem : (k, v) ∈ target) (hself : mergeInto v v = v) : mergeKey target k v = target := by
  have hget := Keyed.get?_of_mem ht hmem
  rw [mergeKey_of_contains (by simp [Keyed.contains, hget])]
  refine Keyed.modify_eq_self fun x hx => ?_
  obtain rfl := Option.some.inj (hget.symm.trans (Keyed.get?_of_mem ht hx))
  exact hself

mutual

theorem mergeInto_self : ∀ {v : Value}, v.IsDistinct → mergeInto v v = v
  | null, _ | scalar _, _ => rfl
  | list _, h => congrArg list (mergeItems_self h)
  | object _, h => congrArg object (mergeFields_of_subset h.2 h.1 fun _ => id)

theorem mergeFields_of_subset : ∀ {source target : Keyed Value}, FieldsAreDistinct source →
    target.keys.Nodup → source ⊆ target → mergeFields source target = target
  | [], _, _, _, _ => rfl
  | (_, _) :: _, _, h, ht, hsub => by
    rw [mergeFields_cons, mergeKey_eq_self ht (hsub List.mem_cons_self) (mergeInto_self h.1)]
    exact mergeFields_of_subset h.2 ht fun _ he => hsub (List.mem_cons_of_mem _ he)

theorem mergeItems_self : ∀ {items : List Value}, AreDistinct items → mergeItems items items = items
  | [], _ => rfl
  | _ :: _, h => by
    rw [mergeItems_cons, mergeItem_eq_self (mergeInto_self h.1), mergeItems_self h.2]

end

/-- To merge under a key a second time changes nothing if it does not below that key. -/
theorem mergeKey_idem {target : Keyed Value} {k : Text} {v : Value} (hself : mergeInto v v = v)
    (hidem : ∀ x, mergeInto v (mergeInto v x) = mergeInto v x) :
    mergeKey (mergeKey target k v) k v = mergeKey target k v := by
  rw [mergeKey_mergeKey fun x _ => by rw [hself, hidem], hself]

theorem mergeItem_idem {v : Value} (hidem : ∀ x, mergeInto v (mergeInto v x) = mergeInto v x)
    (x : Value) : mergeItem v (mergeItem v x) = mergeItem v x := by
  cases v with
  | object _ =>
    cases x with
    | object _ => exact hidem (object _)
    | null | scalar _ | list _ => rfl
  | null | scalar _ | list _ => rfl

mutual

theorem mergeInto_idem : ∀ {v : Value}, v.IsDistinct →
    ∀ x, mergeInto v (mergeInto v x) = mergeInto v x
  | object _, h, object _ => congrArg object (mergeFields_idem h.1 h.2 _)
  | list _, h, list _ => congrArg list (mergeItems_idem h _)
  | null, _, _ | scalar _, _, _ => rfl
  | list _, _, null | list _, _, scalar _ | list _, _, object _ => rfl
  | object _, _, null | object _, _, scalar _ | object _, _, list _ => rfl

-- each field passes through the others, which have other keys, and is absorbed next to itself
theorem mergeFields_idem : ∀ {source : Keyed Value}, source.keys.Nodup → FieldsAreDistinct source →
    ∀ target, mergeFields source (mergeFields source target) = mergeFields source target
  | [], _, _, _ => rfl
  | (k, v) :: source, hkeys, h, target => by
    obtain ⟨hk, hkeys⟩ := List.nodup_cons.mp hkeys
    calc mergeFields ((k, v) :: source) (mergeFields ((k, v) :: source) target)
        = mergeFields source (mergeKey (mergeFields source (mergeKey target k v)) k v) := by
          rw [mergeFields_cons, mergeFields_cons]
      _ = mergeFields source (mergeFields source (mergeKey (mergeKey target k v) k v)) := by
          rw [mergeKey_mergeFields hk contains_mergeKey_self]
      _ = mergeFields source (mergeFields source (mergeKey target k v)) := by
          rw [mergeKey_idem (mergeInto_self h.1) (mergeInto_idem h.1)]
      _ = mergeFields ((k, v) :: source) target := by
          rw [mergeFields_idem hkeys h.2, mergeFields_cons]

theorem mergeItems_idem : ∀ {sources : List Value}, AreDistinct sources →
    ∀ targets, mergeItems sources (mergeItems sources targets) = mergeItems sources targets
  | [], _, _ => by rw [mergeItems_nil_left]
  | _ :: _, _, [] => by rw [mergeItems_nil_right, mergeItems_nil_right]
  | _ :: _, h, target :: targets => by
    rw [mergeItems_cons, mergeItems_cons, mergeItem_idem (mergeInto_idem h.1),
      mergeItems_idem h.2 targets]

end

end Absorbed

theorem filter_mergeKey (target : Keyed Value) (k : Text) (v : Value) :
    (mergeKey target k v).filter (·.1 ≠ k) = target.filter (·.1 ≠ k) := by
  by_cases hk : target.contains k = true
  · rw [mergeKey_of_contains hk, Keyed.filter_modify]
  · simp [mergeKey_of_not_contains hk, List.filter_append]

/-- The fields of an object after a value is merged under a key: those under other keys are the same
in the same order, and what is under the key keeps its leaves and the lengths of its lists. -/
structure Absorbs (merged fields : Keyed Value) (k : Text) (v : Value) : Prop where
  others : merged.filter (·.1 ≠ k) = fields.filter (·.1 ≠ k)
  keys : merged.keys = if fields.contains k then fields.keys else fields.keys ++ [k]
  put : ¬ fields.contains k → merged = fields ++ [(k, v)]
  distinct : (object merged).IsDistinct
  under : ∀ x, fields.get? k = some x → ∃ y, merged.get? k = some y ∧
    ∀ path a, at? path x = some a → ∃ b, at? path y = some b ∧ b.Extends a
  again : mergeKey merged k v = merged

theorem mergeKey_absorbs {fields : Keyed Value} {k : Text} {v : Value}
    (h : (object fields).IsDistinct) (hv : v.IsDistinct) :
    Absorbs (mergeKey fields k v) fields k v where
  others := filter_mergeKey fields k v
  keys := keys_mergeKey fields k v
  put := mergeKey_of_not_contains
  distinct := ⟨nodup_keys_mergeKey h.1,
    fieldsAreDistinct_mergeKey h.2 hv fun _ => isDistinct_mergeInto hv⟩
  under x hx := ⟨mergeInto v x, by simp [get?_mergeKey, hx], fun _ _ => exists_extends_of_at? hv⟩
  again := mergeKey_idem (mergeInto_self hv) (mergeInto_idem hv)

namespace Row

/-- A list of one object, merged with a longer list whose first item has another field. -/
def fields : Keyed Value :=
  [(lit "k", list [object [(lit "a", .scalar (.int 1))]]), (lit "l", null)]

def more : Value := list [object [(lit "b", null)], .scalar (.int 2)]

theorem absorbs_more : Absorbs (mergeKey fields (lit "k") more) fields (lit "k") more ∧
    mergeKey fields (lit "k") more =
      [(lit "k", list [object [(lit "a", .scalar (.int 1)), (lit "b", null)]]),
        (lit "l", null)] := by
  have hfields : (object fields).IsDistinct := by
    simp [fields, IsDistinct, AreDistinct, FieldsAreDistinct, Keyed.keys,
      show lit "k" ≠ lit "l" by decide]
  have hmore : more.IsDistinct := by
    simp [more, IsDistinct, AreDistinct, FieldsAreDistinct, Keyed.keys]
  exact ⟨mergeKey_absorbs hfields hmore, rfl⟩

end Row

end Value

end GraphQL
