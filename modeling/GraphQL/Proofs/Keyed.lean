import GraphQL.Keyed

/-! Entries under names, and what becomes of them when one is changed or put in. -/

namespace GraphQL.Keyed

variable {α : Type} {m : Keyed α} {j k : Text}

theorem keys_append (m n : Keyed α) : keys (m ++ n) = keys m ++ keys n := List.map_append

theorem keys_map {β : Type} (f : α → β) (m : Keyed α) :
    keys (m.map (Prod.map id f)) = m.keys := by
  simp [keys]

theorem not_contains_iff : ¬ m.contains k = true ↔ k ∉ m.keys := by
  rw [contains_iff_mem_keys]

theorem modify_append_of_contains {f : α → α} (h : m.contains k = true) (n : Keyed α) :
    modify f k (m ++ n) = modify f k m ++ n := by
  induction m with
  | nil => cases h
  | cons entry m ih =>
    obtain ⟨i, a⟩ := entry
    by_cases hi : k = i
    · simp [modify, hi]
    · have hm : contains m k = true := by simpa [contains, get?_cons, hi] using h
      simp [modify, hi, ih hm]

theorem modify_append_of_not_contains {f : α → α} (h : ¬ m.contains k = true) (n : Keyed α) :
    modify f k (m ++ n) = m ++ modify f k n := by
  induction m with
  | nil => rfl
  | cons entry m ih =>
    obtain ⟨i, a⟩ := entry
    by_cases hi : k = i
    · simp [contains, get?_cons, hi] at h
    · have hm : ¬ contains m k = true := by simpa [contains, get?_cons, hi] using h
      simp [modify, hi, ih hm]

theorem modify_comm {f g : α → α} (h : j ≠ k) (m : Keyed α) :
    modify f j (modify g k m) = modify g k (modify f j m) := by
  induction m with
  | nil => rfl
  | cons entry m ih =>
    obtain ⟨i, a⟩ := entry
    by_cases hj : j = i
    · subst hj
      simp [modify, Ne.symm h]
    · by_cases hk : k = i
      · subst hk
        simp [modify, h]
      · simp [modify, hj, hk, ih]

theorem modify_modify (f g : α → α) (k : Text) (m : Keyed α) :
    modify f k (modify g k m) = modify (f ∘ g) k m := by
  induction m with
  | nil => rfl
  | cons entry m ih =>
    obtain ⟨i, a⟩ := entry
    by_cases hk : k = i <;> simp [modify, hk, ih]

theorem modify_congr {f g : α → α} (h : ∀ a, (k, a) ∈ m → f a = g a) :
    modify f k m = modify g k m := by
  induction m with
  | nil => rfl
  | cons entry m ih =>
    obtain ⟨i, a⟩ := entry
    by_cases hk : k = i
    · subst hk
      simp [modify, h a (by simp)]
    · simp [modify, hk, ih fun b hb => h b (List.mem_cons_of_mem _ hb)]

theorem modify_eq_self {f : α → α} {k : Text} {m : Keyed α} (h : ∀ a, (k, a) ∈ m → f a = a) :
    modify f k m = m := by
  rw [modify_congr h]
  induction m with
  | nil => rfl
  | cons entry m ih =>
    obtain ⟨i, a⟩ := entry
    by_cases hi : k = i
    · simp [modify, hi]
    · simp [modify, hi, ih fun b hb => h b (List.mem_cons_of_mem _ hb)]

theorem filter_modify (f : α → α) (k : Text) (m : Keyed α) :
    (modify f k m).filter (·.1 ≠ k) = m.filter (·.1 ≠ k) := by
  induction m with
  | nil => rfl
  | cons entry m ih =>
    obtain ⟨i, a⟩ := entry
    by_cases hi : k = i
    · subst hi
      simp [modify]
    · simpa [modify, hi, Ne.symm hi] using ih

theorem mem_of_mem_modify {f : α → α} {key : Text} {m : Keyed α} {e : Text × α}
    (h : e ∈ modify f key m) : e ∈ m ∨ ∃ a, (key, a) ∈ m ∧ e = (key, f a) := by
  induction m with
  | nil => cases h
  | cons entry m ih =>
    obtain ⟨k, a⟩ := entry
    by_cases hk : key = k
    · subst hk
      simp only [modify, beq_self_eq_true, if_true, List.mem_cons] at h
      rcases h with rfl | h
      · exact .inr ⟨a, by simp, rfl⟩
      · exact .inl (List.mem_cons_of_mem _ h)
    · simp only [modify, beq_false_of_ne hk, Bool.false_eq_true, if_false, List.mem_cons] at h
      rcases h with rfl | h
      · exact .inl (by simp)
      · rcases ih h with h | ⟨b, hb, rfl⟩
        · exact .inl (List.mem_cons_of_mem _ h)
        · exact .inr ⟨b, List.mem_cons_of_mem _ hb, rfl⟩

theorem mem_of_mem_put {m : Keyed α} {key : Text} {a : α} {e : Text × α}
    (h : e ∈ m.put key a) : e ∈ m ∨ e = (key, a) := by
  unfold put at h
  split at h
  · rcases mem_of_mem_modify h with h | ⟨_, _, rfl⟩
    · exact .inl h
    · exact .inr rfl
  · simpa using h

theorem mem_of_mem_putNew {m : Keyed α} {key : Text} {a : α} {e : Text × α}
    (h : e ∈ m.putNew key a) : e ∈ m ∨ e = (key, a) := by
  unfold putNew at h
  split at h
  · exact .inl h
  · simpa using h

theorem nodup_keys_putNew {m : Keyed α} (h : m.keys.Nodup) (key : Text) (a : α) :
    (m.putNew key a).keys.Nodup := by
  rw [keys_putNew, ← keys_put m key a]
  exact nodup_keys_put h key a

theorem mem_of_get? {m : Keyed α} {key : Text} {a : α} (h : m.get? key = some a) :
    (key, a) ∈ m := by
  induction m with
  | nil => cases h
  | cons entry m ih =>
    obtain ⟨k, b⟩ := entry
    rw [get?_cons] at h
    by_cases hk : key = k
    · subst hk
      obtain rfl : b = a := by simpa using h
      simp
    · exact List.mem_cons_of_mem _ (ih (by simpa [hk] using h))

theorem get?_of_mem {m : Keyed α} (hm : m.keys.Nodup) {key : Text} {a : α} (h : (key, a) ∈ m) :
    m.get? key = some a := by
  induction m with
  | nil => cases h
  | cons entry m ih =>
    obtain ⟨k, b⟩ := entry
    have hn := List.nodup_cons.mp hm
    rw [get?_cons]
    rcases List.mem_cons.mp h with h | h
    · cases h
      simp
    · have hk : key ≠ k := fun hk => hn.1 (hk ▸ List.mem_map.mpr ⟨_, h, rfl⟩)
      simpa [hk] using ih hn.2 h

theorem get?_eq_some_iff_mem (hm : m.keys.Nodup) {a : α} :
    m.get? k = some a ↔ (k, a) ∈ m :=
  ⟨mem_of_get?, get?_of_mem hm⟩

/-- Under distinct names, the order of the entries does not matter. -/
theorem get?_of_perm {n : Keyed α} (hn : n.keys.Nodup) (h : m.Perm n) (k : Text) :
    m.get? k = n.get? k := by
  have hm : m.keys.Nodup := (h.map _).nodup_iff.mpr hn
  ext a
  rw [get?_eq_some_iff_mem hm, get?_eq_some_iff_mem hn, h.mem_iff]

/-- Under distinct names, the entries after one is put in are that one and those of other names. -/
theorem eq_or_mem_of_mem_put (h : m.keys.Nodup) {key : Text} {a b : α}
    (hm : (k, b) ∈ m.put key a) : (k = key ∧ b = a) ∨ (k ≠ key ∧ (k, b) ∈ m) := by
  have hget : (m.put key a).get? k = some b := get?_of_mem (nodup_keys_put h key a) hm
  rw [get?_put] at hget
  by_cases hk : k = key
  · exact .inl ⟨hk, by simpa [hk] using hget.symm⟩
  · exact .inr ⟨hk, mem_of_get? (by simpa [hk] using hget)⟩

/-- Puts entries in one after another. -/
def putAll (m n : Keyed α) : Keyed α := n.foldl (fun m e => m.put e.1 e.2) m

/-- Entries under new names are put at the end, in their order. -/
theorem putAll_of_nodup {m n : Keyed α} (h : (m.keys ++ n.keys).Nodup) : m.putAll n = m ++ n := by
  induction n generalizing m with
  | nil => exact (List.append_nil m).symm
  | cons e n ih =>
    have hkeys : m.keys ++ keys (e :: n) = keys (m ++ [e]) ++ keys n := by
      rw [keys_append, List.append_assoc]
      rfl
    have hnew : m.contains e.1 = false := by
      rw [← Bool.not_eq_true, not_contains_iff]
      exact fun hm => (List.nodup_append.mp h).2.2 _ hm _ List.mem_cons_self rfl
    have hput : m.put e.1 e.2 = m ++ [e] := by simp [put, hnew]
    rw [hkeys] at h
    change putAll (m.put e.1 e.2) n = m ++ e :: n
    rw [hput, ih h, List.append_assoc]
    rfl

theorem putAll_nil {n : Keyed α} (h : n.keys.Nodup) : putAll [] n = n :=
  putAll_of_nodup (m := []) h

theorem nodup_keys_putAll {m : Keyed α} (h : m.keys.Nodup) (n : Keyed α) :
    (m.putAll n).keys.Nodup := by
  induction n generalizing m with
  | nil => exact h
  | cons e n ih => exact ih (nodup_keys_put h e.1 e.2)

theorem mem_of_mem_putAll {m n : Keyed α} {e : Text × α} (h : e ∈ m.putAll n) :
    e ∈ m ∨ e ∈ n := by
  induction n generalizing m with
  | nil => exact .inl h
  | cons e' n ih =>
    rcases ih h with hm | hn
    · exact (mem_of_mem_put hm).imp_right fun he => List.mem_cons.mpr (.inl he)
    · exact .inr (List.mem_cons_of_mem _ hn)

end GraphQL.Keyed
