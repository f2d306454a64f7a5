import GraphQL.Proofs.Keyed
import GraphQL.Schema.Relations

/-! Schemas as they come about. A registry starts with the built-in scalars and is added to; what is
built from it has every type under its own name, once, and objects as its roots. -/

namespace GraphQL

namespace Registry

inductive Built : Registry → Prop where
  | initial : Built .initial
  | define {r : Registry} (h : r.Built) (d : TypeDef) : Built (r.define d)
  | reserve {r : Registry} (h : r.Built) (name : Text) : Built (r.reserve name)

/-- Every definition stands under its own name, and no name comes twice. -/
structure WellNamed (r : Registry) : Prop where
  named : ∀ key d, (key, .defined d) ∈ r.types → d.name = key
  nodup : r.types.keys.Nodup

theorem WellNamed.define {r : Registry} (h : r.WellNamed) (d : TypeDef) :
    (r.define d).WellNamed where
  named key e he := by
    rcases Keyed.mem_of_mem_put he with he | he
    · exact h.named key e he
    · cases he
      rfl
  nodup := Keyed.nodup_keys_put h.nodup _ _

theorem WellNamed.reserve {r : Registry} (h : r.WellNamed) (name : Text) :
    (r.reserve name).WellNamed where
  named key e he := by
    rcases Keyed.mem_of_mem_putNew he with he | he
    · exact h.named key e he
    · cases he
  nodup := Keyed.nodup_keys_putNew h.nodup _ _

theorem wellNamed_initial : initial.WellNamed := by
  unfold initial
  generalize Scalars.builtin = scalars
  have hempty : (⟨[]⟩ : Registry).WellNamed := ⟨by simp, by simp [Keyed.keys]⟩
  generalize (⟨[]⟩ : Registry) = r at hempty
  induction scalars generalizing r with
  | nil => exact hempty
  | cons d rest ih => exact ih _ (hempty.define _)

theorem Built.wellNamed {r : Registry} (h : r.Built) : r.WellNamed := by
  induction h with
  | initial => exact wellNamed_initial
  | define _ d ih => exact ih.define d
  | reserve _ name ih => exact ih.reserve name

end Registry

namespace Schema

inductive Built : Schema → Prop where
  | build {r : Registry} {query : Text} {mutation subscription : Option Text} {s : Schema}
      (hr : r.Built) (hs : Schema.build r query mutation subscription = .ok s) : Built s
  | addDirective {s : Schema} (h : s.Built) (d : DirectiveDef) : Built (s.addDirective d)
  | describe {s : Schema} (h : s.Built) (text : Option Text) : Built { s with description := text }

/-- Every type stands under its own name, no name comes twice, and the roots are objects. -/
structure WellNamed (s : Schema) : Prop where
  named : ∀ key t, (key, t) ∈ s.types → t.name = key
  nodup : s.types.keys.Nodup
  roots : ∀ operation name, s.rootName? operation = some name →
    ∃ d, s.type? name = some (.object d)

theorem name_complete (t : TypeDef) : (complete t).name = t.name := by
  cases t <;> rfl

theorem typesOf_wellNamed {m : Keyed TypeEntry} {types : Keyed TypeDef}
    (h : typesOf m = .ok types) (hm : ∀ key d, (key, .defined d) ∈ m → d.name = key) :
    types.keys = m.keys ∧ ∀ key t, (key, t) ∈ types → t.name = key := by
  induction m generalizing types with
  | nil =>
    cases h
    exact ⟨rfl, by simp⟩
  | cons entry m ih =>
    obtain ⟨name, e⟩ := entry
    cases e with
    | defined d =>
      simp only [typesOf, TypeEntry.definition?] at h
      cases hr : typesOf m with
      | error v =>
        rw [hr] at h
        cases h
      | ok rest =>
        rw [hr] at h
        cases h
        obtain ⟨hk, hn⟩ := ih hr fun key d hd => hm key d (List.mem_cons_of_mem _ hd)
        refine ⟨by simpa [Keyed.keys] using hk, fun key t ht => ?_⟩
        rcases List.mem_cons.mp ht with ht | ht
        · cases ht
          rw [name_complete]
          exact hm name d (by simp)
        · exact hn key t ht
    | list | nullable | placeholder => simp [typesOf, TypeEntry.definition?] at h

theorem object_of_checkRoot {types : Keyed TypeDef} {operation : OperationType} {name : Text}
    (h : checkRoot types operation name = .ok ()) : ∃ d, types.get? name = some (.object d) := by
  unfold checkRoot at h
  cases ht : types.get? name with
  | none => simp [ht] at h
  | some t =>
    cases t with
    | object d => exact ⟨d, rfl⟩
    | _ => simp [ht, TypeDef.isObject] at h

theorem object_of_checkOptionalRoot {types : Keyed TypeDef} {operation : OperationType}
    {name? : Option Text} {name : Text} (h : checkOptionalRoot types operation name? = .ok ())
    (hn : name? = some name) : ∃ d, types.get? name = some (.object d) := by
  subst hn
  exact object_of_checkRoot h

@[simp] theorem types_foldl_addDirective (ds : List DirectiveDef) (s : Schema) :
    (ds.foldl addDirective s).types = s.types := by
  induction ds generalizing s with
  | nil => rfl
  | cons d ds ih => simp [ih, addDirective]

@[simp] theorem rootName?_foldl_addDirective (ds : List DirectiveDef) (s : Schema)
    (operation : OperationType) :
    (ds.foldl addDirective s).rootName? operation = s.rootName? operation := by
  induction ds generalizing s with
  | nil => rfl
  | cons d ds ih =>
    rw [List.foldl_cons, ih]
    cases operation <;> rfl

/-- A schema is built where all types are defined and the roots are found to be objects. -/
theorem build_eq_ok_iff {r : Registry} {query : Text} {mutation subscription : Option Text}
    {s : Schema} : build r query mutation subscription = .ok s ↔
      ∃ types, typesOf r.types = .ok types ∧ checkRoot types .query query = .ok () ∧
        checkOptionalRoot types .mutation mutation = .ok () ∧
        checkOptionalRoot types .subscription subscription = .ok () ∧
        s = builtinDirectives.foldl addDirective
          ⟨types, query, mutation, subscription, [], none⟩ := by
  unfold build
  cases ht : typesOf r.types with
  | error v => simp [bind, Except.bind]
  | ok types =>
    cases hq : checkRoot types .query query with
    | error v => simp [hq, bind, Except.bind]
    | ok _ =>
      cases hm : checkOptionalRoot types .mutation mutation with
      | error v => simp [hq, hm, bind, Except.bind]
      | ok _ =>
        cases hsub : checkOptionalRoot types .subscription subscription with
        | error v => simp [hq, hm, hsub, bind, Except.bind]
        | ok _ => simp [hq, hm, hsub, bind, Except.bind, pure, Except.pure, eq_comm]

theorem wellNamed_build {r : Registry} {query : Text} {mutation subscription : Option Text}
    {s : Schema} (hr : r.WellNamed) (h : build r query mutation subscription = .ok s) :
    s.WellNamed := by
  obtain ⟨types, ht, hq, hm, hsub, rfl⟩ := build_eq_ok_iff.mp h
  obtain ⟨hkeys, hnamed⟩ := typesOf_wellNamed ht hr.named
  refine ⟨by simpa using hnamed, by simpa [hkeys] using hr.nodup, fun operation name hn => ?_⟩
  rw [type?, types_foldl_addDirective]
  rw [rootName?_foldl_addDirective] at hn
  cases operation with
  | query =>
    cases hn
    exact object_of_checkRoot hq
  | mutation => exact object_of_checkOptionalRoot hm hn
  | subscription => exact object_of_checkOptionalRoot hsub hn

theorem Built.wellNamed {s : Schema} (h : s.Built) : s.WellNamed := by
  induction h with
  | build hr hs => exact wellNamed_build hr.wellNamed hs
  | addDirective _ d ih =>
    exact ⟨ih.named, ih.nodup, fun operation name hn => ih.roots operation name
      (by cases operation <;> exact hn)⟩
  | describe _ text ih =>
    exact ⟨ih.named, ih.nodup, fun operation name hn => ih.roots operation name
      (by cases operation <;> exact hn)⟩

theorem exists_complete_of_typesOf {m : Keyed TypeEntry} {types : Keyed TypeDef}
    (h : typesOf m = .ok types) : ∀ entry ∈ types, ∃ t, entry.2 = complete t := by
  induction m generalizing types with
  | nil =>
    cases h
    simp
  | cons entry m ih =>
    obtain ⟨name, e⟩ := entry
    rw [typesOf] at h
    cases hd : e.definition? with
    | none => simp [hd] at h
    | some d =>
      cases hr : typesOf m with
      | error v =>
        rw [hd, hr] at h
        cases h
      | ok rest =>
        rw [hd, hr] at h
        obtain rfl := Except.ok.inj h
        intro entry hm
        rcases List.mem_cons.mp hm with rfl | hm
        · exact ⟨d, rfl⟩
        · exact ih hr entry hm

theorem typesOf_of_build {r : Registry} {query : Text} {mutation subscription : Option Text}
    {s : Schema} (h : build r query mutation subscription = .ok s) :
    typesOf r.types = .ok s.types := by
  obtain ⟨types, ht, -, -, -, rfl⟩ := build_eq_ok_iff.mp h
  rwa [types_foldl_addDirective]

theorem Built.exists_complete {s : Schema} (h : s.Built) :
    ∀ entry ∈ s.types, ∃ t, entry.2 = complete t := by
  induction h with
  | build _ hs => exact exists_complete_of_typesOf (typesOf_of_build hs)
  | addDirective _ d ih => exact ih
  | describe _ text ih => exact ih

end Schema

end GraphQL
