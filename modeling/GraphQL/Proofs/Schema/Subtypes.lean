import GraphQL.Proofs.Schema.Built
import GraphQL.Schema.Position
import GraphQL.Validation.Rules

/-! Objects and the types they may stand for. In a schema that fits together an object has every
field that can be selected on a type it stands for, with a type at least as narrow. -/

namespace GraphQL.Schema

/-- What unions list are objects, as far as the names are those of types. -/
def ListsObjects (s : Schema) : Prop :=
  ∀ name u member t, s.type? name = some (.union u) → member ∈ u.members →
    s.type? member = some t → ∃ d, t = .object d

/-- Field types are registered, unions list objects, and an object has the fields of its interfaces
with their types or narrower ones. -/
structure Coherent (s : Schema) : Prop where
  known : ∀ name t f, s.type? name = some t → f ∈ t.ownFields →
    (s.type? f.type.innermostName).isSome
  members : ∀ name u member, s.type? name = some (.union u) → member ∈ u.members →
    ∃ d, s.type? member = some (.object d)
  implementations : ∀ name d interfaceName i field f, s.type? name = some (.object d) →
    interfaceName ∈ d.interfaces → s.type? interfaceName = some (.interface i) →
    (TypeDef.interface i).field? field = some f →
    ∃ g, (TypeDef.object d).field? field = some g ∧
      s.isNamedSubtype g.type.innermostName f.type.innermostName = true

/-- `true` when a field of an object is declared as its interface asks. -/
def meetsInterface (s : Schema) (d : TypeDef) (f : FieldDef) : Bool :=
  (d.field? f.name).any fun g => s.isNamedSubtype g.type.innermostName f.type.innermostName

def isCoherentType (s : Schema) (t : TypeDef) : Bool :=
  t.ownFields.all (fun f => (s.type? f.type.innermostName).isSome) && match t with
    | .union u => u.members.all fun member => (s.type? member).any (·.isObject)
    | .object d => d.interfaces.all fun name => match s.type? name with
      | some (.interface i) => i.fields.all (s.meetsInterface (.object d))
      | _ => true
    | _ => true

variable {s : Schema} {o p q : Text} {d : ObjectDef} {t t' : TypeDef}

/-- To fit together can be checked type by type. -/
theorem coherent_of_isCoherentType (h : s.types.all (s.isCoherentType ·.2) = true) :
    s.Coherent := by
  have htype (name : Text) (t : TypeDef) (ht : s.type? name = some t) :
      s.isCoherentType t = true :=
    List.all_eq_true.mp h (name, t) (Keyed.mem_of_get? ht)
  refine ⟨fun name t f ht hf => ?_, fun name u member ht hm => ?_,
    fun name d interfaceName i field f ht hi hinterface hf => ?_⟩
  · have hfields := (Bool.and_eq_true_iff.mp (htype name t ht)).1
    exact List.all_eq_true.mp hfields f hf
  · have hmembers := (Bool.and_eq_true_iff.mp (htype name _ ht)).2
    have hmember := List.all_eq_true.mp hmembers member hm
    cases hd : s.type? member with
    | none => simp [hd] at hmember
    | some t =>
      cases t with
      | object d => exact ⟨d, rfl⟩
      | _ => simp [hd, TypeDef.isObject] at hmember
  · have hinterfaces := (Bool.and_eq_true_iff.mp (htype name _ ht)).2
    have hfields := List.all_eq_true.mp hinterfaces interfaceName hi
    rw [hinterface] at hfields
    have hmeets := List.all_eq_true.mp hfields f (List.mem_of_find?_eq_some hf)
    obtain rfl : f.name = field := by simpa using List.find?_some hf
    cases hg : (TypeDef.object d).field? f.name with
    | none => simp [meetsInterface, hg] at hmeets
    | some g => exact ⟨g, rfl, by simpa [meetsInterface, hg] using hmeets⟩

theorem Coherent.listsObjects (hc : s.Coherent) : s.ListsObjects := by
  intro name u member t hname hmember ht
  obtain ⟨d, hd⟩ := hc.members name u member hname hmember
  exact ⟨d, Option.some.inj (ht.symm.trans hd)⟩

theorem WellNamed.name_of_type? (hs : s.WellNamed) (h : s.type? p = some t) : t.name = p :=
  hs.named p t (Keyed.mem_of_get? h)

theorem WellNamed.type?_of_mem (hs : s.WellNamed) {key : Text} (h : (key, t) ∈ s.types) :
    s.type? t.name = some t := by
  rw [hs.named key t h]
  exact Keyed.get?_of_mem hs.nodup h

@[simp] theorem isNamedSubtype_self (s : Schema) (name : Text) :
    s.isNamedSubtype name name = true := by
  simp [isNamedSubtype]

theorem isNamedSubtype_eq (ho : s.type? o = some t') (hp : s.type? p = some t) :
    s.isNamedSubtype o p = (o == p || s.isPossible t t') := by
  cases hop : o == p <;> simp [isNamedSubtype, hop, ho, hp]

theorem isNamedSubtype_of_isPossible (ho : s.type? o = some t') (hp : s.type? p = some t)
    (h : s.isPossible t t' = true) : s.isNamedSubtype o p = true := by
  rw [isNamedSubtype_eq ho hp, h, Bool.or_true]

/-- What a type stands for: objects that implement it, or its members. -/
theorem possible_cases (h : t' ∈ s.possible t) :
    (∃ i d, t = .interface i ∧ t' = .object d ∧ i.name ∈ d.interfaces) ∨
      ∃ u, t = .union u ∧ ∃ member ∈ u.members, s.type? member = some t' := by
  cases t with
  | interface i =>
    have himplements := (List.mem_filter.mp h).2
    cases t' with
    | object d => exact .inl ⟨i, d, rfl, rfl, by simpa [implements] using himplements⟩
    | _ => cases himplements
  | union u =>
    obtain ⟨member, hmember, ht'⟩ := List.mem_filterMap.mp h
    exact .inr ⟨u, rfl, member, hmember, ht'⟩
  | _ => cases h

theorem object_of_mem_possible (hu : s.ListsObjects) (ht : s.type? p = some t)
    (h : t' ∈ s.possible t) : ∃ d, t' = .object d := by
  rcases possible_cases h with ⟨_, d, -, rfl, -⟩ | ⟨u, rfl, member, hmember, ht'⟩
  · exact ⟨d, rfl⟩
  · exact hu p u member t' ht hmember ht'

/-- Types that an abstract type stands for are types of the schema. -/
theorem type?_of_mem_possible (hs : s.WellNamed) (h : t' ∈ s.possible t) :
    s.type? t'.name = some t' := by
  cases t with
  | interface i =>
    obtain ⟨⟨key, _⟩, hkey, rfl⟩ :=
      List.mem_map.mp (List.mem_mergeSort.mp (List.mem_filter.mp h).1)
    exact hs.type?_of_mem hkey
  | union u =>
    obtain ⟨member, -, ht'⟩ := List.mem_filterMap.mp h
    rwa [hs.name_of_type? ht']
  | _ => cases h

/-- A type is told by its name. -/
theorem isPossible_iff_mem (hs : s.WellNamed) (ht' : s.type? p = some t') :
    s.isPossible t t' = true ↔ t' ∈ s.possible t := by
  rw [isPossible, List.any_eq_true]
  constructor
  · rintro ⟨found, hfound, hname⟩
    have htype := type?_of_mem_possible hs hfound
    rw [eq_of_beq hname, hs.name_of_type? ht', ht'] at htype
    rwa [Option.some.inj htype]
  · exact fun h => ⟨t', h, beq_self_eq_true _⟩

theorem isNamedSubtype_iff (hs : s.WellNamed) : s.isNamedSubtype p q = true ↔
    p = q ∨ ∃ a b, s.type? p = some a ∧ s.type? q = some b ∧ a ∈ s.possible b := by
  by_cases hpq : p = q
  · simp [hpq]
  cases ha : s.type? p with
  | none => simp [isNamedSubtype, hpq, ha]
  | some a =>
    cases hb : s.type? q with
    | none => simp [isNamedSubtype, hpq, hb]
    | some b => simp [isNamedSubtype_eq ha hb, hpq, isPossible_iff_mem hs ha]

theorem isNamedSubtype_iff_mem (hs : s.WellNamed) (ho : s.type? o = some t')
    (hp : s.type? p = some t) : s.isNamedSubtype o p = true ↔ o = p ∨ t' ∈ s.possible t := by
  rw [isNamedSubtype_eq ho hp, Bool.or_eq_true, beq_iff_eq, isPossible_iff_mem hs ho]

/-- The types an object stands for: itself, an interface that it implements, a union that lists
it. -/
theorem supertype_cases (hs : s.WellNamed) (ho : s.type? o = some (.object d))
    (hp : s.type? p = some t) (h : s.isNamedSubtype o p = true) :
    (o = p ∧ t = .object d) ∨ (∃ i, t = .interface i ∧ p ∈ d.interfaces) ∨ ∃ u, t = .union u := by
  rcases (isNamedSubtype_iff_mem hs ho hp).mp h with rfl | hmem
  · rw [ho] at hp
    exact .inl ⟨rfl, (Option.some.inj hp).symm⟩
  · rcases possible_cases hmem with ⟨i, d', rfl, hd, hi⟩ | ⟨u, rfl, -⟩
    · cases hd
      have hname : i.name = p := hs.name_of_type? hp
      exact .inr (.inl ⟨i, rfl, hname ▸ hi⟩)
    · exact .inr (.inr ⟨u, rfl⟩)

/-- Subtyping goes no further than one step: what a type stands for are objects, and those stand
for nothing else. -/
theorem ListsObjects.isNamedSubtype_trans (hu : s.ListsObjects) (hs : s.WellNamed) {r : Text}
    (hpq : s.isNamedSubtype p q = true) (hqr : s.isNamedSubtype q r = true) :
    s.isNamedSubtype p r = true := by
  rcases (isNamedSubtype_iff hs).mp hqr with rfl | ⟨b, c, hb, hc, hbc⟩
  · exact hpq
  obtain ⟨d, rfl⟩ := object_of_mem_possible hu hc hbc
  rcases (isNamedSubtype_iff hs).mp hpq with rfl | ⟨a, b', -, hb', hab⟩
  · exact hqr
  · rw [hb] at hb'
    obtain rfl := Option.some.inj hb'
    cases hab

def ObjectsWithin (s : Schema) (narrow wide : Text) : Prop :=
  ∀ o d, s.type? o = some (.object d) → s.isNamedSubtype o narrow = true →
    s.isNamedSubtype o wide = true

theorem ObjectsWithin.self (s : Schema) (name : Text) : s.ObjectsWithin name name :=
  fun _ _ _ h => h

theorem objectsWithin_of_isNamedSubtype (hs : s.WellNamed) (hc : s.Coherent) {a b : Text}
    (h : s.isNamedSubtype a b = true) : s.ObjectsWithin a b :=
  fun _ _ _ hoa => hc.listsObjects.isNamedSubtype_trans hs hoa h

/-- A field that can be selected on a type is a field of every object that stands for it. -/
theorem field_of_supertype (hs : s.WellNamed) (hc : s.Coherent)
    (ho : s.type? o = some (.object d)) (hp : s.type? p = some t)
    (h : s.isNamedSubtype o p = true) {field : Text} (hf : Rules.hasField t field = true)
    (hn : field ≠ lit "__typename") :
    ∃ f g, t.field? field = some f ∧ (TypeDef.object d).field? field = some g ∧
      s.isNamedSubtype g.type.innermostName f.type.innermostName = true := by
  rcases supertype_cases hs ho hp h with ⟨_, rfl⟩ | ⟨i, rfl, hi⟩ | ⟨u, rfl⟩
  · obtain ⟨f, hf⟩ := Option.isSome_iff_exists.mp (by simpa [Rules.hasField] using hf)
    exact ⟨f, f, hf, hf, by simp⟩
  · obtain ⟨f, hf⟩ := Option.isSome_iff_exists.mp (by simpa [Rules.hasField] using hf)
    obtain ⟨g, hg, hsub⟩ := hc.implementations o d p i field f ho hi hp hf
    exact ⟨f, g, hf, hg, hsub⟩
  · simp [Rules.hasField, TypeDef.field?, TypeDef.ownFields, hn] at hf

/-- An object that meets a type condition stands for the type it names. -/
theorem isNamedSubtype_of_meetsCondition {condition : Text}
    (h : s.meetsCondition condition o = .ok true) : s.isNamedSubtype o condition = true := by
  by_cases he : condition = o
  · simp [he]
  · cases ht : s.type? condition with
    | none => simp [meetsCondition, he, requireType, ht, bind, Except.bind] at h
    | some t =>
      cases ho : s.type? o with
      | none => simp [meetsCondition, he, requireType, ht, ho, bind, Except.bind] at h
      | some t' =>
        simp only [meetsCondition, beq_false_of_ne he, Bool.false_eq_true, if_false, requireType,
          ht, ho, bind, Except.bind, pure, Except.pure, Except.ok.injEq, Bool.and_eq_true] at h
        exact isNamedSubtype_of_isPossible ho ht h.2

theorem meetsCondition_of_known {condition : Text} (hcond : (s.type? condition).isSome)
    (ho : (s.type? o).isSome) : ∃ b, s.meetsCondition condition o = .ok b := by
  obtain ⟨t, ht⟩ := Option.isSome_iff_exists.mp hcond
  obtain ⟨t', ho⟩ := Option.isSome_iff_exists.mp ho
  by_cases he : condition = o
  · exact ⟨true, by simp [meetsCondition, he]⟩
  · exact ⟨t.isAbstract && s.isPossible t t', by
      simp [meetsCondition, he, requireType, ht, ho, bind, Except.bind, pure, Except.pure]⟩

theorem requireType_of_type? (h : s.type? p = some t) : s.requireType p = .ok t := by
  simp [requireType, h]

theorem type?_of_requireType (h : s.requireType p = .ok t) : s.type? p = some t := by
  unfold requireType at h
  cases ht : s.type? p with
  | none =>
    rw [ht] at h
    cases h
  | some t' =>
    rw [ht] at h
    rw [Except.ok.inj h]

theorem position_of_known {r : TypeRef} (h : (s.type? r.innermostName).isSome) :
    ∃ place, s.position r = .ok place := by
  induction r with
  | named name nonNull =>
    obtain ⟨t, ht⟩ := Option.isSome_iff_exists.mp h
    have ht : s.type? name = some t := ht
    refine ⟨.wrap nonNull (.concrete t), ?_⟩
    rw [position, requireType_of_type? ht]
    rfl
  | list element size nonNull ih =>
    obtain ⟨e, he⟩ := ih h
    refine ⟨.wrap nonNull (.list e size), ?_⟩
    rw [position, he]
    rfl

theorem any_withTypename (fields : List FieldDef) :
    (withTypename fields).any (·.name == lit "__typename") = true := by
  unfold withTypename
  split
  · assumption
  · rw [List.any_append, List.any_cons]
    simp [typenameField]

/-- Every object of a schema tells its type. -/
theorem Built.hasField_typename {s : Schema} (h : s.Built) {o : Text} {d : ObjectDef}
    (ho : s.type? o = some (.object d)) :
    Rules.hasField (.object d) (lit "__typename") = true := by
  obtain ⟨t, ht⟩ := h.exists_complete _ (Keyed.mem_of_get? ho)
  cases t with
  | object d' =>
    obtain rfl := TypeDef.object.inj ht
    have hsome := List.find?_isSome.mpr (List.any_eq_true.mp (any_withTypename d'.fields))
    simpa [Rules.hasField, TypeDef.field?, TypeDef.ownFields] using hsome
  | _ => cases ht

end GraphQL.Schema
