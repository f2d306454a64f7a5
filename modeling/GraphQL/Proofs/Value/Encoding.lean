import GraphQL.Json.Value
import GraphQL.Proofs.Value.Paths
import GraphQL.Proofs.Value.Printing
import GraphQL.Proofs.Value.Sameness

/-! Values and the JSON trees that stand for them. A value is read back from its tree exactly when
no object in it has a key twice; a tree is written back from its value exactly when the same is true
of it and its integers fit 32 bits. -/

namespace GraphQL

/-- A scalar is equal to itself unless it is a NaN. -/
theorem Scalar.beq_self_iff {s : Scalar} :
    (s == s) = true ↔ ∀ x, s = .float x → x.isNaN = false := by
  refine ⟨fun h x hs => ?_, beq_self_of_not_nan⟩
  subst hs
  rcases beq_iff.mp h with ⟨y, z, ⟨⟩, ⟨⟩, hself⟩ | ⟨-, hne⟩
  · exact (Binary64.beq_iff.mp hself).1
  · exact absurd rfl (hne x)

theorem Scalar.ofInteger_toInt (n : Int32) : Scalar.ofInteger n.toInt = .int n := by
  rw [Scalar.ofInteger, Scalar.ofInt?_toInt, Option.getD_some]

/-- An integer is written back as it was read exactly when it fits 32 bits. -/
theorem Scalar.toJson_ofInteger_iff {n : Int} :
    (Scalar.ofInteger n).toJson = .int n ↔ -0x80000000 ≤ n ∧ n < 0x80000000 := by
  by_cases h : -0x80000000 ≤ n ∧ n < 0x80000000
  · have hfits : Scalar.ofInt? n = some (.int (Int32.ofInt n)) := by simp [Scalar.ofInt?, h]
    have hn : (Int32.ofInt n).toInt = n := Int32.toInt_ofInt_of_le h.1 h.2
    simp [Scalar.ofInteger, hfits, Scalar.toJson, hn, h]
  · have hlarge : Scalar.ofInt? n = none := by simpa [Scalar.ofInt?] using h
    simpa [Scalar.ofInteger, hlarge, Scalar.toJson] using h

namespace Json

/-- No key of an object stands there twice; other trees have no keys. -/
def HasDistinctKeys : Json → Prop
  | .object fields => (Keyed.keys fields).Nodup
  | _ => True

/-- An integer fits 32 bits; other trees are no integers. -/
def IsNarrow : Json → Prop
  | .int n => -0x80000000 ≤ n ∧ n < 0x80000000
  | _ => True

mutual

/-- Every tree in a tree has a property, itself included. -/
def Every (p : Json → Prop) : Json → Prop
  | .array items => p (.array items) ∧ EveryItem p items
  | .object fields => p (.object fields) ∧ EveryField p fields
  | j => p j

def EveryItem (p : Json → Prop) : List Json → Prop
  | [] => True
  | j :: rest => j.Every p ∧ EveryItem p rest

def EveryField (p : Json → Prop) : List (Text × Json) → Prop
  | [] => True
  | (_, j) :: rest => j.Every p ∧ EveryField p rest

end

section

variable {p q : Json → Prop}

theorem everyItem_iff {items : List Json} : EveryItem p items ↔ ∀ j ∈ items, j.Every p := by
  induction items with
  | nil => simp [EveryItem]
  | cons j rest ih => rw [EveryItem, ih, List.forall_mem_cons]

theorem everyField_iff {fields : List (Text × Json)} :
    EveryField p fields ↔ ∀ e ∈ fields, e.2.Every p := by
  induction fields with
  | nil => simp [EveryField]
  | cons e rest ih => rw [EveryField, ih, List.forall_mem_cons]

mutual

theorem every_and : ∀ j : Json, (j.Every fun j => p j ∧ q j) ↔ j.Every p ∧ j.Every q
  | .array items => (and_congr_right fun _ => everyItem_and items).trans and_and_and_comm
  | .object fields => (and_congr_right fun _ => everyField_and fields).trans and_and_and_comm
  | .null => .rfl
  | .bool _ => .rfl
  | .int _ => .rfl
  | .float _ => .rfl
  | .string _ => .rfl

theorem everyItem_and : ∀ items : List Json,
    EveryItem (fun j => p j ∧ q j) items ↔ EveryItem p items ∧ EveryItem q items
  | [] => (and_self_iff).symm
  | j :: rest => (and_congr (every_and j) (everyItem_and rest)).trans and_and_and_comm

theorem everyField_and : ∀ fields : List (Text × Json),
    EveryField (fun j => p j ∧ q j) fields ↔ EveryField p fields ∧ EveryField q fields
  | [] => (and_self_iff).symm
  | (_, j) :: rest => (and_congr (every_and j) (everyField_and rest)).trans and_and_and_comm

end

end

end Json

namespace Value

/-! ### What encoding and decoding come to, part by part -/

theorem itemsToJson_eq (items : List Value) : itemsToJson items = items.map toJson := by
  induction items with
  | nil => rfl
  | cons v rest ih => rw [itemsToJson, ih, List.map_cons]

theorem fieldsToJson_eq (written : Keyed Json) (fields : List (Text × Value)) :
    fieldsToJson written fields = written.putAll (fields.map (Prod.map id toJson)) := by
  induction fields generalizing written with
  | nil => rfl
  | cons e rest ih => exact ih _

theorem itemsOfJson_eq (items : List Json) : itemsOfJson items = items.map ofJson := by
  induction items with
  | nil => rfl
  | cons j rest ih => rw [itemsOfJson, ih, List.map_cons]

theorem fieldsOfJson_eq (read : Keyed Value) (fields : List (Text × Json)) :
    fieldsOfJson read fields = read.putAll (fields.map (Prod.map id ofJson)) := by
  induction fields generalizing read with
  | nil => rfl
  | cons e rest ih => exact ih _

/-- Under distinct keys, fields are encoded one by one in their order. -/
theorem fieldsToJson_of_nodup {fields : Keyed Value} (h : fields.keys.Nodup) :
    fieldsToJson [] fields = fields.map (Prod.map id toJson) := by
  rw [fieldsToJson_eq]
  exact Keyed.putAll_nil (by rwa [Keyed.keys_map])

theorem fieldsOfJson_of_nodup {fields : Keyed Json} (h : fields.keys.Nodup) :
    fieldsOfJson [] fields = fields.map (Prod.map id ofJson) := by
  rw [fieldsOfJson_eq]
  exact Keyed.putAll_nil (by rwa [Keyed.keys_map])

/-! ### From values to trees and back -/

mutual

theorem ofJson_toJson : ∀ {v : Value}, v.IsDistinct → ofJson v.toJson = v
  | null, _ => rfl
  | scalar s, _ => by
    cases s with
    | int n => exact congrArg scalar (Scalar.ofInteger_toInt n)
    | float _ | string _ | boolean _ => rfl
  | list items, h => by
    rw [toJson, ofJson, itemsToJson_eq, itemsOfJson_eq, List.map_map, map_ofJson_toJson h]
  | object fields, h => by
    have hkeys : (Keyed.keys (fields.map (Prod.map id toJson))).Nodup := by
      rw [Keyed.keys_map]
      exact h.1
    rw [toJson, ofJson, fieldsToJson_of_nodup h.1, fieldsOfJson_of_nodup hkeys, List.map_map,
      map_fields_ofJson_toJson h.2]

theorem map_ofJson_toJson : ∀ {items : List Value}, AreDistinct items →
    items.map (ofJson ∘ toJson) = items
  | [], _ => rfl
  | v :: rest, h => by
    rw [List.map_cons, map_ofJson_toJson h.2, Function.comp_apply, ofJson_toJson h.1]

theorem map_fields_ofJson_toJson : ∀ {fields : List (Text × Value)}, FieldsAreDistinct fields →
    fields.map (Prod.map id ofJson ∘ Prod.map id toJson) = fields
  | [], _ => rfl
  | (k, v) :: rest, h => by
    rw [List.map_cons, map_fields_ofJson_toJson h.2, Function.comp_apply, Prod.map_apply,
      Prod.map_apply, ofJson_toJson h.1]
    rfl

end

mutual

/-- What is read from a tree has no key twice. -/
theorem isDistinct_ofJson : ∀ j : Json, (ofJson j).IsDistinct
  | .null => trivial
  | .bool _ => trivial
  | .int _ => trivial
  | .float _ => trivial
  | .string _ => trivial
  | .array items => by
    rw [ofJson, IsDistinct, itemsOfJson_eq, areDistinct_iff]
    intro v hv
    obtain ⟨j, hj, rfl⟩ := List.mem_map.mp hv
    exact isDistinct_item items j hj
  | .object fields => by
    rw [ofJson, IsDistinct, fieldsOfJson_eq, fieldsAreDistinct_iff]
    refine ⟨Keyed.nodup_keys_putAll (m := []) .nil _, fun k v hv => ?_⟩
    obtain ⟨e, he, hev⟩ := List.mem_map.mp ((Keyed.mem_of_mem_putAll hv).resolve_left (by simp))
    have hvalue : v = ofJson e.2 := (congrArg Prod.snd hev).symm
    rw [hvalue]
    exact isDistinct_field fields e he

theorem isDistinct_item : ∀ (items : List Json), ∀ j ∈ items, (ofJson j).IsDistinct
  | [] => List.forall_mem_nil _
  | j :: rest => List.forall_mem_cons.mpr ⟨isDistinct_ofJson j, isDistinct_item rest⟩

theorem isDistinct_field : ∀ (fields : List (Text × Json)), ∀ e ∈ fields, (ofJson e.2).IsDistinct
  | [] => List.forall_mem_nil _
  | (_, j) :: rest => List.forall_mem_cons.mpr ⟨isDistinct_ofJson j, isDistinct_field rest⟩

end

theorem ofJson_toJson_iff {v : Value} : ofJson v.toJson = v ↔ v.IsDistinct :=
  ⟨fun h => h ▸ isDistinct_ofJson v.toJson, ofJson_toJson⟩

/-! ### From trees to values and back -/

open Json (HasDistinctKeys IsNarrow Every EveryItem EveryField)

mutual

theorem toJson_ofJson : ∀ {j : Json}, j.Every (fun j => HasDistinctKeys j ∧ IsNarrow j) →
    (ofJson j).toJson = j
  | .null, _ => rfl
  | .bool _, _ => rfl
  | .int _, h => Scalar.toJson_ofInteger_iff.mpr h.2
  | .float _, _ => rfl
  | .string _, _ => rfl
  | .array items, h => by
    rw [ofJson, toJson, itemsOfJson_eq, itemsToJson_eq, List.map_map, map_toJson_ofJson h.2]
  | .object fields, h => by
    have hnodup : (Keyed.keys fields).Nodup := h.1.1
    have hkeys : (Keyed.keys (fields.map (Prod.map id ofJson))).Nodup := by
      rwa [Keyed.keys_map]
    rw [ofJson, toJson, fieldsOfJson_of_nodup hnodup, fieldsToJson_of_nodup hkeys, List.map_map,
      map_fields_toJson_ofJson h.2]

theorem map_toJson_ofJson : ∀ {items : List Json},
    EveryItem (fun j => HasDistinctKeys j ∧ IsNarrow j) items → items.map (toJson ∘ ofJson) = items
  | [], _ => rfl
  | j :: rest, h => by
    rw [List.map_cons, map_toJson_ofJson h.2, Function.comp_apply, toJson_ofJson h.1]

theorem map_fields_toJson_ofJson : ∀ {fields : List (Text × Json)},
    EveryField (fun j => HasDistinctKeys j ∧ IsNarrow j) fields →
      fields.map (Prod.map id toJson ∘ Prod.map id ofJson) = fields
  | [], _ => rfl
  | (k, j) :: rest, h => by
    rw [List.map_cons, map_fields_toJson_ofJson h.2, Function.comp_apply, Prod.map_apply,
      Prod.map_apply, toJson_ofJson h.1]
    rfl

end

theorem every_toJson_scalar (s : Scalar) :
    s.toJson.Every fun j => HasDistinctKeys j ∧ IsNarrow j := by
  cases s with
  | int n => exact ⟨trivial, n.le_toInt, n.toInt_lt⟩
  | float _ | string _ | boolean _ => exact ⟨trivial, trivial⟩

mutual

/-- What a value is written as has no key twice and holds integers of 32 bits only. -/
theorem every_toJson : ∀ v : Value, v.toJson.Every fun j => HasDistinctKeys j ∧ IsNarrow j
  | null => ⟨trivial, trivial⟩
  | scalar s => every_toJson_scalar s
  | list items => by
    rw [toJson, Every, itemsToJson_eq, Json.everyItem_iff, List.forall_mem_map]
    exact ⟨⟨trivial, trivial⟩, every_item items⟩
  | object fields => by
    rw [toJson, Every, fieldsToJson_eq, Json.everyField_iff]
    refine ⟨⟨Keyed.nodup_keys_putAll (m := []) .nil _, trivial⟩, fun e he => ?_⟩
    obtain ⟨f, hf, rfl⟩ := List.mem_map.mp ((Keyed.mem_of_mem_putAll he).resolve_left (by simp))
    exact every_field fields f hf

theorem every_item : ∀ (items : List Value), ∀ v ∈ items,
    v.toJson.Every fun j => HasDistinctKeys j ∧ IsNarrow j
  | [] => List.forall_mem_nil _
  | v :: rest => List.forall_mem_cons.mpr ⟨every_toJson v, every_item rest⟩

theorem every_field : ∀ (fields : List (Text × Value)), ∀ e ∈ fields,
    e.2.toJson.Every fun j => HasDistinctKeys j ∧ IsNarrow j
  | [] => List.forall_mem_nil _
  | (_, v) :: rest => List.forall_mem_cons.mpr ⟨every_toJson v, every_field rest⟩

end

theorem toJson_ofJson_iff {j : Json} :
    (ofJson j).toJson = j ↔ j.Every HasDistinctKeys ∧ j.Every IsNarrow := by
  rw [← Json.every_and]
  exact ⟨fun h => h ▸ every_toJson (ofJson j), toJson_ofJson⟩

/-! ### Equality of values -/

mutual

/-- No float in a value is a NaN. -/
def LacksNaN : Value → Prop
  | null => True
  | scalar s => ∀ x, s = .float x → x.isNaN = false
  | list items => AllLackNaN items
  | object fields => FieldsLackNaN fields

def AllLackNaN : List Value → Prop
  | [] => True
  | v :: rest => v.LacksNaN ∧ AllLackNaN rest

def FieldsLackNaN : List (Text × Value) → Prop
  | [] => True
  | (_, v) :: rest => v.LacksNaN ∧ FieldsLackNaN rest

end

mutual

/-- A value is equal to itself exactly when it lacks what is not. -/
theorem beq_self_iff : ∀ v : Value, v.beq v = true ↔ v.LacksNaN
  | null => iff_of_true rfl trivial
  | scalar _ => Scalar.beq_self_iff
  | list items => beqItems_self_iff items
  | object fields => beqFields_self_iff fields

theorem beqItems_self_iff : ∀ items : List Value, beqItems items items = true ↔ AllLackNaN items
  | [] => iff_of_true rfl trivial
  | v :: rest => by
    rw [beqItems, Bool.and_eq_true, beq_self_iff v, beqItems_self_iff rest, AllLackNaN]

theorem beqFields_self_iff : ∀ fields : List (Text × Value),
    beqFields fields fields = true ↔ FieldsLackNaN fields
  | [] => iff_of_true rfl trivial
  | (k, v) :: rest => by
    rw [beqFields, beq_self_eq_true, Bool.true_and, Bool.and_eq_true, beq_self_iff v,
      beqFields_self_iff rest, FieldsLackNaN]

end

theorem keys_of_beqFields : ∀ {xs ys : List (Text × Value)}, beqFields xs ys = true →
    Keyed.keys xs = Keyed.keys ys
  | [], [], _ => rfl
  | (k, _) :: _, (l, _) :: _, h => by
    rw [beqFields, Bool.and_eq_true, Bool.and_eq_true, beq_iff_eq] at h
    exact congrArg₂ List.cons h.1.1 (keys_of_beqFields h.2)

mutual

/-- Equal values have the same keys, so that one of them alone cannot have a key twice. -/
theorem IsDistinct.of_beq : ∀ {v w : Value}, v.beq w = true → v.IsDistinct → w.IsDistinct
  | null, w, h, _ => by
    cases w with
    | null => trivial
    | scalar _ | list _ | object _ => cases h
  | scalar _, w, h, _ => by
    cases w with
    | scalar _ => trivial
    | null | list _ | object _ => cases h
  | list _, w, h, hv => by
    cases w with
    | list _ => exact AreDistinct.of_beqItems h hv
    | null | scalar _ | object _ => cases h
  | object _, w, h, hv => by
    cases w with
    | object _ =>
      exact ⟨keys_of_beqFields h ▸ hv.1, FieldsAreDistinct.of_beqFields h hv.2⟩
    | null | scalar _ | list _ => cases h

theorem AreDistinct.of_beqItems : ∀ {xs ys : List Value}, beqItems xs ys = true →
    AreDistinct xs → AreDistinct ys
  | [], [], _, _ => trivial
  | _ :: _, _ :: _, h, hx => by
    rw [beqItems, Bool.and_eq_true] at h
    exact ⟨hx.1.of_beq h.1, AreDistinct.of_beqItems h.2 hx.2⟩

theorem FieldsAreDistinct.of_beqFields : ∀ {xs ys : List (Text × Value)}, beqFields xs ys = true →
    FieldsAreDistinct xs → FieldsAreDistinct ys
  | [], [], _, _ => trivial
  | (_, _) :: _, (_, _) :: _, h, hx => by
    rw [beqFields, Bool.and_eq_true, Bool.and_eq_true] at h
    exact ⟨hx.1.of_beq h.1.2, FieldsAreDistinct.of_beqFields h.2 hx.2⟩

end

/-- Encoding a value loses nothing: it is read back from its tree, keys in their order, exactly when
no object in it has a key twice, and it is then equal to what is read back unless a NaN is in it,
which equals nothing. A tree that is decoded is written back as it was exactly when no object in it
has a key twice and all its integers fit 32 bits; larger ones are floats from then on. -/
theorem toJson_lossless (v : Value) (j : Json) :
    (ofJson v.toJson = v ↔ v.IsDistinct) ∧
    ((ofJson v.toJson == v) = true ↔ v.IsDistinct ∧ v.LacksNaN) ∧
    ((ofJson j).toJson = j ↔ j.Every HasDistinctKeys ∧ j.Every IsNarrow) := by
  refine ⟨ofJson_toJson_iff, ⟨fun h => ?_, fun ⟨hdistinct, hnan⟩ => ?_⟩, toJson_ofJson_iff⟩
  · have hdistinct : v.IsDistinct := (isDistinct_ofJson v.toJson).of_beq h
    rw [ofJson_toJson hdistinct] at h
    exact ⟨hdistinct, (beq_self_iff v).mp h⟩
  · rw [ofJson_toJson hdistinct]
    exact (beq_self_iff v).mpr hnan

/-- Of a repeated key the first place and the last value are left, and a float without a fraction
stays one. -/
example : ofJson (toJson (object [(lit "a", null), (lit "b", .scalar (.float (.ofInt 2))),
    (lit "a", .scalar (.int 3))])) =
    object [(lit "a", .scalar (.int 3)), (lit "b", .scalar (.float (.ofInt 2)))] := rfl

end Value

end GraphQL
