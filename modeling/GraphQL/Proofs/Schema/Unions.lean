import Mathlib.Data.List.Perm.Subperm
import Mathlib.Logic.Relation
import GraphQL.Document.Parser
import GraphQL.Proofs.Keyed

/-! What can be selected on a union is what can be selected on its members, unions among them. It is
found for every type but those that lead into a circle of unions, and there no depth is enough. -/

namespace GraphQL

/-- A pass over a list fails where it fails at one of the elements. -/
theorem mapM_eq_none_iff {α β : Type} {f : α → Option β} {xs : List α} :
    xs.mapM f = none ↔ ∃ x ∈ xs, f x = none := by
  induction xs with
  | nil => simp
  | cons x xs ih =>
    cases hx : f x with
    | none => simp [List.mapM_cons, hx]
    | some y => cases hxs : xs.mapM f <;> simp_all [List.mapM_cons]

theorem mapM_congr {α β : Type} {f g : α → Option β} {xs : List α} (h : ∀ x ∈ xs, f x = g x) :
    xs.mapM f = xs.mapM g := by
  induction xs with
  | nil => rfl
  | cons x xs ih =>
    rw [List.mapM_cons, List.mapM_cons, h x List.mem_cons_self,
      ih fun y hy => h y (List.mem_cons_of_mem x hy)]

namespace Schema

open Relation

variable {s : Schema} {t u : TypeDef} {depth : Nat}

/-- The first type is a member of the second, which is a union. -/
def IsMember (s : Schema) (u t : TypeDef) : Prop :=
  ∃ d, t = .union d ∧ u ∈ d.members.filterMap s.type?

/-- No union lists itself, directly or through other unions. -/
def UnionsEnd (s : Schema) : Prop := ∀ t, ¬ TransGen s.IsMember t t

theorem IsMember.mem_types (h : s.IsMember u t) : u ∈ s.types.map Prod.snd := by
  obtain ⟨d, -, hu⟩ := h
  obtain ⟨name, -, hname⟩ := List.mem_filterMap.mp hu
  exact List.mem_map.mpr ⟨_, Keyed.mem_of_get? hname, rfl⟩

/-- The fields of a union, followed one deeper, are those of its members put together. -/
theorem fieldsUpTo_union (d : UnionDef) : s.fieldsUpTo (depth + 1) (.union d) =
    ((d.members.filterMap s.type?).mapM (s.fieldsUpTo depth)).map
      fun fields => some (fields.flatMap (·.getD [])) := by
  rw [fieldsUpTo]
  cases (d.members.filterMap s.type?).mapM (s.fieldsUpTo depth) <;> rfl

/-- There is no answer for a union that is to be followed no further, or with a member for which
there is none. -/
theorem fieldsUpTo_succ_eq_none_iff :
    s.fieldsUpTo (depth + 1) t = none ↔ ∃ u, s.IsMember u t ∧ s.fieldsUpTo depth u = none := by
  cases t with
  | union d =>
    rw [fieldsUpTo_union, Option.map_eq_none_iff, mapM_eq_none_iff]
    constructor
    · rintro ⟨u, hu, hnone⟩
      exact ⟨u, ⟨d, rfl, hu⟩, hnone⟩
    · rintro ⟨u, ⟨_, ⟨⟩, hu⟩, hnone⟩
      exact ⟨u, hu, hnone⟩
  | _ => simp [fieldsUpTo, IsMember]

/-- An answer stays the same when unions are followed deeper. -/
theorem fieldsUpTo_succ_of_ne_none (h : s.fieldsUpTo depth t ≠ none) :
    s.fieldsUpTo (depth + 1) t = s.fieldsUpTo depth t := by
  induction depth generalizing t with
  | zero =>
    cases t with
    | union d => exact absurd rfl h
    | _ => rfl
  | succ depth ih =>
    cases t with
    | union d =>
      have hmember (u : TypeDef) (hu : u ∈ d.members.filterMap s.type?) :
          s.fieldsUpTo depth u ≠ none :=
        fun hnone => h (fieldsUpTo_succ_eq_none_iff.mpr ⟨u, ⟨d, rfl, hu⟩, hnone⟩)
      rw [fieldsUpTo_union, fieldsUpTo_union, mapM_congr fun u hu => ih (hmember u hu)]
    | _ => rfl

/-! ### Circles -/

/-- What leads to a circle is a union with a member that does. -/
theorem exists_isMember_of_circle (hcircle : TransGen s.IsMember u u)
    (h : ReflTransGen s.IsMember u t) : ∃ v, ReflTransGen s.IsMember u v ∧ s.IsMember v t := by
  cases h with
  | refl => exact TransGen.tail'_iff.mp hcircle
  | tail hv ht => exact ⟨_, hv, ht⟩

theorem fieldsUpTo_of_circle (hcircle : TransGen s.IsMember u u)
    (h : ReflTransGen s.IsMember u t) (depth : Nat) : s.fieldsUpTo depth t = none := by
  induction depth generalizing t with
  | zero =>
    obtain ⟨v, -, d, rfl, -⟩ := exists_isMember_of_circle hcircle h
    rfl
  | succ depth ih =>
    obtain ⟨v, hv, ht⟩ := exists_isMember_of_circle hcircle h
    exact fieldsUpTo_succ_eq_none_iff.mpr ⟨v, ht, ih hv⟩

/-- Away from circles, unions that go so deep are as many different types. -/
theorem exists_nodup_of_fieldsUpTo
    (hends : ∀ u, ReflTransGen s.IsMember u t → ¬ TransGen s.IsMember u u)
    (h : s.fieldsUpTo depth t = none) : ∃ chain : List TypeDef, chain.length = depth ∧
      chain.Nodup ∧ ∀ u ∈ chain, TransGen s.IsMember u t := by
  induction depth generalizing t with
  | zero => exact ⟨[], rfl, List.nodup_nil, nofun⟩
  | succ depth ih =>
    obtain ⟨v, hv, hnone⟩ := fieldsUpTo_succ_eq_none_iff.mp h
    obtain ⟨chain, hlength, hnodup, hbelow⟩ := ih (fun u hu => hends u (hu.tail hv)) hnone
    have hfresh : v ∉ chain := fun hmem => hends v (.single hv) (hbelow v hmem)
    refine ⟨v :: chain, congrArg Nat.succ hlength, List.nodup_cons.mpr ⟨hfresh, hnodup⟩, ?_⟩
    exact List.forall_mem_cons.mpr ⟨.single hv, fun u hu => (hbelow u hu).tail hv⟩

/-- To follow unions deeper than there are types is enough: there is no answer only for what leads
to a circle, and there no depth would give one. -/
theorem fields?_eq_none_iff : s.fields? t = none ↔
    ∃ u, ReflTransGen s.IsMember u t ∧ TransGen s.IsMember u u := by
  constructor
  · intro h
    by_contra hends
    push Not at hends
    obtain ⟨chain, hlength, hnodup, hbelow⟩ := exists_nodup_of_fieldsUpTo hends h
    have htypes : chain ⊆ s.types.map Prod.snd := by
      intro u hu
      obtain ⟨v, huv, -⟩ := TransGen.head'_iff.mp (hbelow u hu)
      exact huv.mem_types
    have hle := (List.subperm_of_subset hnodup htypes).length_le
    rw [hlength, List.length_map] at hle
    omega
  · rintro ⟨u, hut, hcircle⟩
    exact fieldsUpTo_of_circle hcircle hut _

/-- The fields of a union are those of its members, looked up in the same way. -/
theorem fields?_union (d : UnionDef) : s.fields? (.union d) =
    ((d.members.filterMap s.type?).mapM s.fields?).map
      fun fields => some (fields.flatMap (·.getD [])) := by
  cases h : s.fields? (.union d) with
  | none =>
    obtain ⟨u, hu, hcircle⟩ := fields?_eq_none_iff.mp h
    obtain ⟨v, huv, _, ⟨⟩, hv⟩ := exists_isMember_of_circle hcircle hu
    have hnone := mapM_eq_none_iff.mpr ⟨v, hv, fields?_eq_none_iff.mpr ⟨u, huv, hcircle⟩⟩
    rw [hnone, Option.map_none]
  | some fields =>
    have hmember (u : TypeDef) (hu : u ∈ d.members.filterMap s.type?) :
        s.fieldsUpTo s.types.length u ≠ none := fun hnone => by
      have hunion := fieldsUpTo_succ_eq_none_iff.mpr ⟨u, ⟨d, rfl, hu⟩, hnone⟩
      exact Option.some_ne_none fields (h.symm.trans hunion)
    rw [← h, fields?, fieldsUpTo_union]
    exact congrArg _ (mapM_congr fun u hu => (fieldsUpTo_succ_of_ne_none (hmember u hu)).symm)

/-- There is an answer for every type where unions end. -/
theorem UnionsEnd.isSome_fields? (h : s.UnionsEnd) (t : TypeDef) : (s.fields? t).isSome := by
  rw [Option.isSome_iff_ne_none]
  intro hnone
  obtain ⟨u, -, hcircle⟩ := fields?_eq_none_iff.mp hnone
  exact h u hcircle

/-- A circle is met from the types of the schema. -/
theorem unionsEnd_iff : s.UnionsEnd ↔ ∀ entry ∈ s.types, (s.fields? entry.2).isSome := by
  refine ⟨fun h entry _ => h.isSome_fields? entry.2, fun h t hcircle => ?_⟩
  obtain ⟨v, hv, -⟩ := TransGen.head'_iff.mp hcircle
  obtain ⟨entry, hentry, rfl⟩ := List.mem_map.mp hv.mem_types
  have hnone := fields?_eq_none_iff.mpr ⟨entry.2, .refl, hcircle⟩
  exact Option.isSome_iff_ne_none.mp (h entry hentry) hnone

instance : Decidable s.UnionsEnd := decidable_of_iff _ unionsEnd_iff.symm

end Schema

namespace Parser

variable {schema : Schema}

/-- The parser finds what can be selected on a type, unless unions do not end. -/
theorem findFields_eq_or (schema : Schema) (t : Option TypeDef) :
    findFields schema t = pure (fieldsOf schema t) ∨
      findFields schema t = endless ∧ ¬ schema.UnionsEnd := by
  unfold findFields
  split_ifs with hnone
  · refine .inr ⟨rfl, fun h => ?_⟩
    obtain ⟨t, -, hnone⟩ := (Option.any_eq_true _ _).mp hnone
    rw [Option.isNone_iff_eq_none] at hnone
    exact Option.isSome_iff_ne_none.mp (h.isSome_fields? t) hnone
  · exact .inl rfl

theorem findFields_of_unionsEnd (h : schema.UnionsEnd) (t : Option TypeDef) (s : Tokens) :
    findFields schema t s = .ok (fieldsOf schema t) s := by
  rw [(findFields_eq_or schema t).resolve_right fun hnone => hnone.2 h]
  rfl

end Parser

namespace Circle

/-- A union that lists itself. -/
def loop : UnionDef := ⟨lit "Loop", none, [lit "Loop"]⟩

def query : ObjectDef :=
  ⟨lit "Query", none, [⟨lit "a", none, none, .named (lit "Int") false, .current⟩], []⟩

def schema : Schema :=
  ⟨[(lit "Int", .scalar Scalars.int), (lit "Float", .scalar Scalars.float),
      (lit "String", .scalar Scalars.string), (lit "Loop", .union loop),
      (lit "Query", .object query)], lit "Query", none, none, [], none⟩

example : ¬ schema.UnionsEnd := by decide

/-- A fragment on the union that lists itself. -/
def source : Text := lit "\x7b...on Loop\x7ba\x7d\x7d"

end Circle

end GraphQL
