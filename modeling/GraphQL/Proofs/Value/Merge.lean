import GraphQL.Proofs.Keyed
import GraphQL.Value.Merge

/-! Laws of merging, key by key. Whether merging is associative under a key is left to the values
that stand there. -/

namespace GraphQL

namespace Value

variable {source target : Keyed Value} {j k : Text} {v w : Value}

theorem mergeKey_of_contains (h : target.contains k = true) :
    mergeKey target k v = Keyed.modify (mergeInto v) k target := by
  rw [mergeKey, mergeFields, if_pos h, mergeFields]

theorem mergeKey_of_not_contains (h : ¬ target.contains k = true) :
    mergeKey target k v = target ++ [(k, v)] := by
  rw [mergeKey, mergeFields, if_neg h, mergeFields]

theorem mergeFields_cons (entry : Text × Value) (source target : Keyed Value) :
    mergeFields (entry :: source) target =
      mergeFields source (mergeKey target entry.1 entry.2) := by
  rw [mergeKey, mergeFields, mergeFields, mergeFields]

theorem mergeFields_append (first second target : Keyed Value) :
    mergeFields (first ++ second) target = mergeFields second (mergeFields first target) := by
  induction first generalizing target with
  | nil => rw [List.nil_append, mergeFields]
  | cons entry first ih => rw [List.cons_append, mergeFields_cons, mergeFields_cons, ih]

theorem keys_mergeKey (target : Keyed Value) (k : Text) (v : Value) :
    (mergeKey target k v).keys =
      if target.contains k then target.keys else target.keys ++ [k] := by
  by_cases h : target.contains k = true
  · rw [mergeKey_of_contains h, Keyed.keys_modify, if_pos h]
  · rw [mergeKey_of_not_contains h, if_neg h]
    exact Keyed.keys_append _ _

theorem nodup_keys_mergeKey (h : target.keys.Nodup) : (mergeKey target k v).keys.Nodup := by
  rw [keys_mergeKey]
  by_cases hk : target.contains k = true
  · rwa [if_pos hk]
  · rw [if_neg hk]
    have hk : k ∉ target.keys := Keyed.not_contains_iff.mp hk
    simpa [List.nodup_append, h] using fun i hi (he : i = k) => hk (he ▸ hi)

theorem nodup_keys_mergeFields (h : target.keys.Nodup) :
    (mergeFields source target).keys.Nodup := by
  induction source generalizing target with
  | nil => rwa [mergeFields]
  | cons entry source ih =>
    rw [mergeFields_cons]
    exact ih (nodup_keys_mergeKey h)

theorem contains_mergeKey_of_contains (h : target.contains k = true) :
    (mergeKey target j v).contains k = true := by
  rw [Keyed.contains_iff_mem_keys] at h ⊢
  rw [keys_mergeKey]
  by_cases hj : target.contains j = true
  · rwa [if_pos hj]
  · rw [if_neg hj]
    exact List.mem_append_left _ h

theorem contains_mergeKey_self : (mergeKey target k v).contains k = true := by
  rw [Keyed.contains_iff_mem_keys, keys_mergeKey]
  by_cases hk : target.contains k = true
  · rw [if_pos hk]
    exact Keyed.contains_iff_mem_keys.mp hk
  · simp [hk]

/-- An entry after a merge was there before, is the one put in, or what it became in the merge. -/
theorem mem_mergeKey {i : Text} {a : Value} (h : (i, a) ∈ mergeKey target k v) :
    (i, a) ∈ target ∨ i = k ∧ (a = v ∨ ∃ b, (k, b) ∈ target ∧ a = mergeInto v b) := by
  by_cases hk : target.contains k = true
  · rw [mergeKey_of_contains hk] at h
    rcases Keyed.mem_of_mem_modify h with h | ⟨b, hb, he⟩
    · exact .inl h
    · obtain ⟨rfl, rfl⟩ := Prod.mk.inj he
      exact .inr ⟨rfl, .inr ⟨b, hb, rfl⟩⟩
  · rw [mergeKey_of_not_contains hk] at h
    rcases List.mem_append.mp h with h | h
    · exact .inl h
    · obtain ⟨rfl, rfl⟩ := Prod.mk.inj (List.mem_singleton.mp h)
      exact .inr ⟨rfl, .inl rfl⟩

theorem mergeKey_comm (h : j ≠ k) (hk : target.contains k = true) :
    mergeKey (mergeKey target j w) k v = mergeKey (mergeKey target k v) j w := by
  rw [mergeKey_of_contains (contains_mergeKey_of_contains hk), mergeKey_of_contains hk]
  by_cases hj : target.contains j = true
  · have hj' : (Keyed.modify (mergeInto v) k target).contains j = true := by
      rw [Keyed.contains_iff_mem_keys, Keyed.keys_modify]
      exact Keyed.contains_iff_mem_keys.mp hj
    rw [mergeKey_of_contains hj, mergeKey_of_contains hj', Keyed.modify_comm h.symm]
  · have hj' : ¬ (Keyed.modify (mergeInto v) k target).contains j = true := by
      rw [Keyed.not_contains_iff, Keyed.keys_modify]
      exact Keyed.not_contains_iff.mp hj
    rw [mergeKey_of_not_contains hj, mergeKey_of_not_contains hj',
      Keyed.modify_append_of_contains hk]

theorem mergeKey_mergeFields (h : k ∉ source.keys) (hk : target.contains k = true) :
    mergeKey (mergeFields source target) k v = mergeFields source (mergeKey target k v) := by
  induction source generalizing target with
  | nil => rw [mergeFields, mergeFields]
  | cons entry source ih =>
    obtain ⟨j, w⟩ := entry
    obtain ⟨hne, h⟩ : k ≠ j ∧ k ∉ Keyed.keys source := by simpa [Keyed.keys] using h
    rw [mergeFields_cons, mergeFields_cons, ih h (contains_mergeKey_of_contains hk),
      mergeKey_comm hne.symm hk]

theorem mergeKey_mergeKey (hassoc : ∀ x, (k, x) ∈ target →
      mergeInto (mergeInto v w) x = mergeInto v (mergeInto w x)) :
    mergeKey (mergeKey target k w) k v = mergeKey target k (mergeInto v w) := by
  rw [mergeKey_of_contains contains_mergeKey_self]
  by_cases ht : target.contains k = true
  · rw [mergeKey_of_contains ht, mergeKey_of_contains ht, Keyed.modify_modify]
    exact Keyed.modify_congr fun x hx => (hassoc x hx).symm
  · rw [mergeKey_of_not_contains ht, mergeKey_of_not_contains ht,
      Keyed.modify_append_of_not_contains ht]
    simp [Keyed.modify]

/-- A field may be merged before or after, where merging is associative under its key. -/
theorem mergeFields_mergeKey (hs : source.keys.Nodup)
    (hassoc : ∀ y x, (k, y) ∈ source → (k, x) ∈ target →
      mergeInto (mergeInto v y) x = mergeInto v (mergeInto y x)) :
    mergeFields (mergeKey source k v) target = mergeKey (mergeFields source target) k v := by
  by_cases hk : source.contains k = true
  · rw [mergeKey_of_contains hk]
    induction source generalizing target with
    | nil => cases hk
    | cons entry source ih =>
      obtain ⟨j, y⟩ := entry
      obtain ⟨hj, hs⟩ := List.nodup_cons.mp hs
      by_cases hkj : k = j
      · subst hkj
        rw [Keyed.modify, if_pos (by simp), mergeFields_cons, mergeFields_cons,
          mergeKey_mergeFields hj contains_mergeKey_self,
          mergeKey_mergeKey fun x hx => hassoc y x (by simp) hx]
      · have hk : Keyed.contains source k = true := by
          simpa [Keyed.contains, Keyed.get?_cons, hkj] using hk
        rw [Keyed.modify, if_neg (by simpa using hkj), mergeFields_cons, mergeFields_cons]
        refine ih hs (fun y' x hy hx => ?_) hk
        refine hassoc y' x (List.mem_cons_of_mem _ hy) ?_
        rcases mem_mergeKey hx with hx | ⟨rfl, -⟩
        · exact hx
        · exact absurd rfl hkj
  · rw [mergeKey_of_not_contains hk, mergeFields_append, mergeKey]

theorem mergeFields_of_disjoint (hs : source.keys.Nodup)
    (h : ∀ key ∈ source.keys, key ∉ target.keys) :
    mergeFields source target = target ++ source := by
  induction source generalizing target with
  | nil => simp [mergeFields]
  | cons entry rest ih =>
    obtain ⟨key, v⟩ := entry
    obtain ⟨hkey, hrest⟩ := List.nodup_cons.mp hs
    have hc : ¬ target.contains key = true :=
      fun hc => h key (by simp [Keyed.keys]) (Keyed.contains_iff_mem_keys.mp hc)
    rw [mergeFields, if_neg hc, ih hrest]
    · simp
    · intro k hk hmem
      have hmem : k ∈ target.keys ∨ k = key := by simpa [Keyed.keys] using hmem
      rcases hmem with hmem | rfl
      · exact h k (List.mem_cons_of_mem _ hk) hmem
      · exact hkey hk

/-- Merging at an index of a list: objects merge, anything else stays as it is. -/
def mergeItem : (source target : Value) → Value
  | object source, object target => object (mergeFields source target)
  | _, target => target

theorem mergeItem_list (source : Value) (items : List Value) :
    mergeItem source (list items) = list items := by
  cases source <;> rfl

/-- Where both items are objects they merge, and elsewhere the first one stays. -/
theorem mergeItem_cases (source target : Value) :
    mergeItem source target = mergeInto source target ∨ mergeItem source target = target := by
  cases source <;> cases target <;> first | exact .inr rfl | exact .inl rfl

theorem mergeItems_cons (source target : Value) (sources targets : List Value) :
    mergeItems (source :: sources) (target :: targets) =
      mergeItem source target :: mergeItems sources targets := by
  cases source <;> cases target <;> rfl

theorem mergeItems_nil_left (targets : List Value) : mergeItems [] targets = targets := by
  cases targets <;> rfl

theorem mergeItems_nil_right (sources : List Value) : mergeItems sources [] = [] := by
  rcases sources with _ | ⟨source, _⟩
  · rfl
  · cases source <;> rfl

theorem length_mergeItems : ∀ sources targets : List Value,
    (mergeItems sources targets).length = targets.length
  | [], targets => by rw [mergeItems_nil_left]
  | _ :: _, [] => by rw [mergeItems_nil_right]
  | source :: sources, target :: targets => by
    rw [mergeItems_cons, List.length_cons, List.length_cons, length_mergeItems sources targets]

/-- What merging makes of an item that is there already. -/
theorem getElem?_mergeItems : ∀ (sources targets : List Value) (i : Nat),
    (mergeItems sources targets)[i]? =
      targets[i]?.map fun target => (sources[i]?).elim target (mergeItem · target)
  | [], targets, i => by simp [mergeItems_nil_left]
  | _ :: _, [], i => by simp [mergeItems_nil_right]
  | source :: sources, target :: targets, 0 => by simp [mergeItems_cons]
  | source :: sources, target :: targets, i + 1 => by
    simpa [mergeItems_cons] using getElem?_mergeItems sources targets i

theorem get?_mergeKey (target : Keyed Value) (k : Text) (v : Value) (j : Text) :
    (mergeKey target k v).get? j =
      if j = k then some ((target.get? k).elim v (mergeInto v)) else target.get? j := by
  by_cases hk : target.contains k = true
  · obtain ⟨x, hx⟩ := Option.isSome_iff_exists.mp hk
    rw [mergeKey_of_contains hk, Keyed.get?_modify]
    by_cases hj : j = k
    · subst hj
      simp [hx]
    · simp [hj]
  · have hnone : target.get? k = none := Keyed.contains_eq_false_iff.mp (by simpa using hk)
    rw [mergeKey_of_not_contains hk, Keyed.get?_append]
    by_cases hj : j = k
    · subst hj
      simp [hnone, Keyed.get?_cons]
    · simp [hj, Keyed.get?_cons]

/-- What merging makes of a field: it merges with the field that is there already. -/
theorem get?_mergeFields {source : Keyed Value} (hs : source.keys.Nodup) (target : Keyed Value)
    (k : Text) : (mergeFields source target).get? k =
      (target.get? k).elim (source.get? k) fun x =>
        some ((source.get? k).elim x (mergeInto · x)) := by
  induction source generalizing target with
  | nil =>
    rw [mergeFields]
    cases target.get? k <;> rfl
  | cons entry source ih =>
    obtain ⟨j, v⟩ := entry
    obtain ⟨hj, hs⟩ := List.nodup_cons.mp hs
    rw [mergeFields_cons, ih hs, get?_mergeKey, Keyed.get?_cons]
    by_cases hk : k = j
    · subst hk
      have hnone : Keyed.get? source k = none :=
        Keyed.contains_eq_false_iff.mp (by simpa using Keyed.not_contains_iff.mpr hj)
      cases target.get? k <;> simp [hnone]
    · simp [hk]

end Value

end GraphQL
