import GraphQL.Text

/-!
Entries under names, in order. Of two entries under one name the first counts. To change an entry
leaves the others and the order alone, and a new name comes last.
-/

namespace GraphQL

/-- Entries under names, in the order they were put in. -/
abbrev Keyed (α : Type) := List (Text × α)

namespace Keyed

variable {α : Type}

def get? (m : Keyed α) (key : Text) : Option α := m.lookup key

/-- `true` when there is an entry under the name. -/
def contains (m : Keyed α) (key : Text) : Bool := (m.get? key).isSome

/-- Changes the first entry under a name. -/
def modify (f : α → α) (key : Text) : Keyed α → Keyed α
  | [] => []
  | (k, a) :: rest => if key == k then (k, f a) :: rest else (k, a) :: modify f key rest

/-- Replaces the entry under a name in its place, or adds one at the end. -/
def put (m : Keyed α) (key : Text) (a : α) : Keyed α :=
  if m.contains key then modify (fun _ => a) key m else m ++ [(key, a)]

/-- Adds an entry at the end unless the name is taken. -/
def putNew (m : Keyed α) (key : Text) (a : α) : Keyed α :=
  if m.contains key then m else m ++ [(key, a)]

/-- The names in order. -/
def keys (m : Keyed α) : List Text := m.map (·.1)

/-- The entries sorted by name. -/
def sorted (m : Keyed α) : Keyed α := m.mergeSort fun a b => !Text.lt b.1 a.1

@[simp] theorem get?_nil (key : Text) : get? ([] : Keyed α) key = none := rfl

theorem get?_cons (k : Text) (a : α) (m : Keyed α) (key : Text) :
    get? ((k, a) :: m) key = if key = k then some a else get? m key := by
  by_cases h : key = k
  · simp [get?, h]
  · simp [get?, List.lookup_cons, beq_false_of_ne h, h]

theorem get?_append (m n : Keyed α) (key : Text) :
    get? (m ++ n) key = (get? m key).or (get? n key) := by
  induction m with
  | nil => rfl
  | cons entry m ih =>
    obtain ⟨k, a⟩ := entry
    by_cases h : key = k <;> simp [get?_cons, h, ih]

theorem contains_eq_false_iff {m : Keyed α} {key : Text} :
    m.contains key = false ↔ m.get? key = none := by
  simp [contains]

theorem contains_iff_mem_keys {m : Keyed α} {key : Text} : m.contains key ↔ key ∈ m.keys := by
  induction m with
  | nil => simp [contains, keys]
  | cons entry m ih =>
    obtain ⟨k, a⟩ := entry
    by_cases h : key = k <;> simp_all [contains, keys, get?_cons]

@[simp] theorem keys_modify (f : α → α) (key : Text) (m : Keyed α) :
    keys (modify f key m) = keys m := by
  induction m with
  | nil => rfl
  | cons entry m ih =>
    obtain ⟨k, a⟩ := entry
    by_cases h : key = k <;> simp_all [modify, keys]

theorem get?_modify (f : α → α) (key : Text) (m : Keyed α) (name : Text) :
    get? (modify f key m) name = if name = key then (get? m name).map f else get? m name := by
  induction m with
  | nil => simp [modify]
  | cons entry m ih =>
    obtain ⟨k, a⟩ := entry
    by_cases h : key = k
    · subst h
      by_cases hn : name = key <;> simp [modify, get?_cons, hn]
    · by_cases hk : name = k
      · subst hk
        simp [modify, get?_cons, h, Ne.symm h]
      · simp [modify, get?_cons, h, hk, ih]

theorem get?_put (m : Keyed α) (key : Text) (a : α) (name : Text) :
    get? (m.put key a) name = if name = key then some a else get? m name := by
  by_cases hc : m.contains key
  · by_cases hn : name = key
    · subst hn
      obtain ⟨b, hb⟩ := Option.isSome_iff_exists.mp hc
      simp [put, hc, get?_modify, hb]
    · simp [put, hc, get?_modify, hn]
  · have h : get? m key = none := contains_eq_false_iff.mp (by simpa using hc)
    by_cases hn : name = key
    · subst hn
      simp [put, hc, get?_append, get?_cons, h]
    · simp [put, hc, get?_append, get?_cons, hn]

theorem keys_put (m : Keyed α) (key : Text) (a : α) :
    keys (m.put key a) = if m.contains key then keys m else keys m ++ [key] := by
  by_cases h : m.contains key
  · simp [put, h]
  · simp [put, h, keys]

theorem get?_putNew (m : Keyed α) (key : Text) (a : α) (name : Text) :
    get? (m.putNew key a) name = (get? m name).or (if name = key then some a else none) := by
  by_cases hc : m.contains key
  · by_cases hn : name = key
    · subst hn
      obtain ⟨b, hb⟩ := Option.isSome_iff_exists.mp hc
      simp [putNew, hc, hb]
    · simp [putNew, hc, hn]
  · simp [putNew, hc, get?_append, get?_cons]

theorem keys_putNew (m : Keyed α) (key : Text) (a : α) :
    keys (m.putNew key a) = if m.contains key then keys m else keys m ++ [key] := by
  by_cases h : m.contains key
  · simp [putNew, h]
  · simp [putNew, h, keys]

/-- Names stay distinct. -/
theorem nodup_keys_put {m : Keyed α} (h : m.keys.Nodup) (key : Text) (a : α) :
    (m.put key a).keys.Nodup := by
  rw [keys_put]
  by_cases hc : m.contains key
  · simpa [hc] using h
  · have hk : key ∉ m.keys := fun hm => hc (contains_iff_mem_keys.mpr hm)
    simpa [hc, List.nodup_append, h] using fun k hm (he : k = key) => hk (he ▸ hm)

end Keyed

end GraphQL
