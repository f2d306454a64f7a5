import GraphQL.Proofs.Schema.Subtypes

/-! Subtyping and overlap where unions list objects. Subtyping is an order on references to types;
two types overlap when some object is of both; and for an object it is all one whether it meets a
condition, may stand where a type is asked for, or overlaps with the type. -/

namespace GraphQL.Schema

/-- To list objects can be checked union by union. -/
def listsObjects (s : Schema) : TypeDef → Bool
  | .union u => u.members.all fun member => (s.type? member).all (·.isObject)
  | _ => true

theorem listsObjects_of_all {s : Schema} (h : s.types.all (s.listsObjects ·.2) = true) :
    s.ListsObjects := by
  intro name u member t hname hmember ht
  have hunion := List.all_eq_true.mp h (name, .union u) (Keyed.mem_of_get? hname)
  have hobject := List.all_eq_true.mp hunion member hmember
  rw [ht] at hobject
  cases t with
  | object d => exact ⟨d, rfl⟩
  | _ => cases hobject

/-- The objects of a type: an object by itself, and those that an abstract type stands for. -/
def Includes (s : Schema) (t : TypeDef) (d : ObjectDef) : Prop :=
  t = .object d ∨ .object d ∈ s.possible t

variable {s : Schema} {p q o : Text} {t t' a b : TypeDef} {d : ObjectDef}

/-! ### What a type stands for -/

theorem isAbstract_of_mem_possible (h : t' ∈ s.possible t) : t.isAbstract = true := by
  cases t with
  | interface => rfl
  | union => rfl
  | _ => cases h

theorem possible_eq_nil (h : t.isAbstract = false) : s.possible t = [] := by
  refine List.eq_nil_iff_forall_not_mem.mpr fun t' ht' => ?_
  rw [isAbstract_of_mem_possible ht'] at h
  cases h

theorem isPossible_eq_false (h : t.isAbstract = false) (t' : TypeDef) :
    s.isPossible t t' = false := by
  rw [isPossible, possible_eq_nil h]
  rfl

theorem name_eq_iff (hs : s.WellNamed) (ha : s.type? p = some a) (hb : s.type? q = some b) :
    a.name = b.name ↔ a = b := by
  refine ⟨fun h => ?_, congrArg _⟩
  rw [hs.name_of_type? ha, hs.name_of_type? hb] at h
  rw [h, hb] at ha
  exact (Option.some.inj ha).symm

/-! ### Subtyping -/

theorem isSubtype_refl (s : Schema) (r : TypeRef) : s.isSubtype r r = true := by
  induction r with
  | named name nonNull => simp [isSubtype]
  | list element size nonNull ih => simp [isSubtype, ih]

theorem isSubtype_trans (hs : s.WellNamed) (hu : s.ListsObjects) {x y z : TypeRef}
    (hxy : s.isSubtype x y = true) (hyz : s.isSubtype y z = true) : s.isSubtype x z = true := by
  have hnull : ∀ l m n : Bool, (l || !m) = true → (m || !n) = true → (l || !n) = true := by decide
  induction x generalizing y z with
  | named p l =>
    cases y with
    | list => cases hxy
    | named q m =>
      cases z with
      | list => cases hyz
      | named r n =>
        rw [isSubtype, Bool.and_eq_true] at hxy hyz ⊢
        exact ⟨hnull l m n hxy.1 hyz.1, hu.isNamedSubtype_trans hs hxy.2 hyz.2⟩
  | list x _ l ih =>
    cases y with
    | named => cases hxy
    | list y _ m =>
      cases z with
      | named => cases hyz
      | list z _ n =>
        rw [isSubtype, Bool.and_eq_true] at hxy hyz ⊢
        exact ⟨hnull l m n hxy.1 hyz.1, ih hxy.2 hyz.2⟩

/-! ### Overlap -/

theorem includes_iff_mem (h : t.isAbstract = true) :
    s.Includes t d ↔ .object d ∈ s.possible t := by
  refine ⟨fun hd => hd.resolve_left ?_, .inr⟩
  rintro rfl
  cases h

theorem includes_iff_eq (h : t.isAbstract = false) : s.Includes t d ↔ t = .object d := by
  rw [Includes, possible_eq_nil h, List.mem_nil_iff, or_false]

/-- A type that stands for others overlaps with one that does not where it stands for it. -/
theorem isPossible_iff_includes (hs : s.WellNamed) (hu : s.ListsObjects) (ha : s.type? p = some a)
    (hb : s.type? q = some b) (habstract : a.isAbstract = true) (hconcrete : b.isAbstract = false) :
    s.isPossible a b = true ↔ ∃ d, s.Includes a d ∧ s.Includes b d := by
  rw [isPossible_iff_mem hs hb]
  constructor
  · intro hmem
    obtain ⟨d, rfl⟩ := object_of_mem_possible hu ha hmem
    exact ⟨d, .inr hmem, .inl rfl⟩
  · rintro ⟨d, had, hbd⟩
    rw [(includes_iff_eq hconcrete).mp hbd]
    exact (includes_iff_mem habstract).mp had

/-- Two types that stand for others overlap where they have one of these in common. -/
theorem any_isPossible_iff_includes (hs : s.WellNamed) (hu : s.ListsObjects)
    (ha : s.type? p = some a) (habstract : a.isAbstract = true) (hbstract : b.isAbstract = true) :
    (s.possible a).any (s.isPossible b) = true ↔ ∃ d, s.Includes a d ∧ s.Includes b d := by
  simp only [includes_iff_mem habstract, includes_iff_mem hbstract, List.any_eq_true]
  constructor
  · rintro ⟨o, hao, hbo⟩
    obtain ⟨d, rfl⟩ := object_of_mem_possible hu ha hao
    exact ⟨d, hao, (isPossible_iff_mem hs (type?_of_mem_possible hs hao)).mp hbo⟩
  · rintro ⟨d, had, hbd⟩
    exact ⟨.object d, had, (isPossible_iff_mem hs (type?_of_mem_possible hs hbd)).mpr hbd⟩

theorem typeOverlap_iff (hs : s.WellNamed) (hu : s.ListsObjects) (ha : s.type? p = some a)
    (hb : s.type? q = some b) : s.typeOverlap a b = true ↔
      a = b ∨ ∃ d, s.Includes a d ∧ s.Includes b d := by
  by_cases hab : a = b
  · simp [hab, typeOverlap]
  have hname : (a.name == b.name) = false :=
    beq_false_of_ne fun h => hab ((name_eq_iff hs ha hb).mp h)
  simp only [typeOverlap, hname, Bool.false_eq_true, if_false, hab, false_or]
  cases haa : a.isAbstract with
  | true =>
    cases hbb : b.isAbstract with
    | true => exact any_isPossible_iff_includes hs hu ha haa hbb
    | false => exact isPossible_iff_includes hs hu ha hb haa hbb
  | false =>
    simp only [Bool.false_eq_true, if_false]
    cases hbb : b.isAbstract with
    | true =>
      rw [isPossible_iff_includes hs hu hb ha hbb haa]
      exact exists_congr fun d => and_comm
    | false =>
      rw [isPossible_eq_false hbb]
      refine iff_of_false nofun ?_
      rintro ⟨d, had, hbd⟩
      exact hab (((includes_iff_eq haa).mp had).trans ((includes_iff_eq hbb).mp hbd).symm)

theorem typeOverlap_comm (hs : s.WellNamed) (hu : s.ListsObjects) (ha : s.type? p = some a)
    (hb : s.type? q = some b) : s.typeOverlap a b = s.typeOverlap b a := by
  rw [Bool.eq_iff_iff, typeOverlap_iff hs hu ha hb, typeOverlap_iff hs hu hb ha]
  exact or_congr eq_comm (exists_congr fun d => and_comm)

/-! ### Objects and types -/

theorem meetsCondition_eq (ho : s.type? o = some (.object d)) (ht : s.type? p = some t) :
    s.meetsCondition p o = .ok (s.isNamedSubtype o p) := by
  rw [isNamedSubtype_eq ho ht, meetsCondition, BEq.comm (a := p)]
  cases o == p with
  | true => rfl
  | false =>
    rw [requireType_of_type? ho, requireType_of_type? ht]
    cases hta : t.isAbstract with
    | true => simp [hta, bind, Except.bind, pure, Except.pure]
    | false => simp [hta, isPossible_eq_false hta, bind, Except.bind, pure, Except.pure]

theorem typeOverlap_object (hs : s.WellNamed) (ho : s.type? o = some (.object d))
    (ht : s.type? p = some t) : s.typeOverlap t (.object d) = s.isNamedSubtype o p := by
  have hobject : (TypeDef.object d).isAbstract = false := rfl
  rw [isNamedSubtype_eq ho ht, typeOverlap, hs.name_of_type? ho, hs.name_of_type? ht,
    BEq.comm (a := p), hobject, isPossible_eq_false hobject]
  cases o == p with
  | true => rfl
  | false =>
    cases hta : t.isAbstract with
    | true => rfl
    | false => rw [isPossible_eq_false hta]; rfl

/-- Where unions list objects, types are related as they should be. Subtyping is reflexive and
transitive. Overlap is symmetric, and it holds of a type and itself and of types that some object
is of. And an object meets a condition just when it may stand where the type is asked for, and just
when the two overlap. -/
theorem relations_agree {s : Schema} (hs : s.Built) (hu : s.ListsObjects) :
    (∀ x, s.isSubtype x x = true) ∧
    (∀ x y z, s.isSubtype x y = true → s.isSubtype y z = true → s.isSubtype x z = true) ∧
    (∀ p q a b, s.type? p = some a → s.type? q = some b →
      s.typeOverlap a b = s.typeOverlap b a ∧
      (s.typeOverlap a b = true ↔ a = b ∨
        ∃ o d, s.type? o = some (.object d) ∧ s.Includes a d ∧ s.Includes b d)) ∧
    ∀ o d p t, s.type? o = some (.object d) → s.type? p = some t →
      s.meetsCondition p o = .ok (s.isNamedSubtype o p) ∧
      s.typeOverlap t (.object d) = s.isNamedSubtype o p := by
  have hw := hs.wellNamed
  refine ⟨s.isSubtype_refl, fun x y z => isSubtype_trans hw hu, fun p q a b ha hb => ?_,
    fun o d p t ho ht => ⟨meetsCondition_eq ho ht, typeOverlap_object hw ho ht⟩⟩
  refine ⟨typeOverlap_comm hw hu ha hb, ?_⟩
  have hregistered {d : ObjectDef} (had : s.Includes a d) : s.type? d.name = some (.object d) := by
    rcases had with rfl | hmem
    · have hname : d.name = p := hw.name_of_type? ha
      rwa [hname]
    · exact type?_of_mem_possible hw hmem
  rw [typeOverlap_iff hw hu ha hb]
  refine or_congr_right ⟨fun ⟨d, had, hbd⟩ => ⟨d.name, d, hregistered had, had, hbd⟩, ?_⟩
  rintro ⟨_, d, -, had, hbd⟩
  exact ⟨d, had, hbd⟩

end GraphQL.Schema

namespace GraphQL.Paddock

open Schema

def horse : ObjectDef := ⟨lit "Horse", none, [], [lit "Ridden"]⟩

def ridden : TypeDef := .interface ⟨lit "Ridden", none, [], []⟩

/-- Horses, mules, and what there is none of. -/
def pet : TypeDef := .union ⟨lit "Pet", none, [lit "Mule", lit "Unicorn", lit "Horse"]⟩

def registry : Registry :=
  [.object ⟨lit "Query", none, [], []⟩, ridden, .object horse,
    .object ⟨lit "Mule", none, [], []⟩, pet].foldl Registry.define .initial

def schema : Schema :=
  match Schema.build registry (lit "Query") none none with
  | .ok s => s
  | .error _ => ⟨[], [], none, none, [], none⟩

theorem built : schema.Built := by
  have hr : registry.Built := .define (.define (.define (.define (.define .initial _) _) _) _) _
  have hs : Schema.build registry (lit "Query") none none = .ok schema := rfl
  exact .build hr hs

theorem listsObjects : schema.ListsObjects := listsObjects_of_all (by decide)

/-- Some pets are ridden, a horse is one of them, and lists of horses are lists of pets. -/
theorem relations_agree_horse :
    schema.isSubtype (.list (.named (lit "Horse") true) (some 2) true)
      (.list (.named (lit "Pet") false) none false) = true ∧
    schema.typeOverlap (complete ridden) pet = true ∧
    schema.typeOverlap pet (complete ridden) = true ∧
    schema.meetsCondition (lit "Pet") (lit "Horse") = .ok true := by
  obtain ⟨-, htrans, hoverlap, hobject⟩ := relations_agree built listsObjects
  have hhorse : schema.type? (lit "Horse") = some (complete (.object horse)) := rfl
  have hpet : schema.type? (lit "Pet") = some pet := rfl
  obtain ⟨hcomm, hiff⟩ := hoverlap (lit "Ridden") (lit "Pet") (complete ridden) pet rfl hpet
  have hlisted : complete (.object horse) ∈ schema.typeList :=
    List.mem_mergeSort.mpr (List.mem_map.mpr ⟨_, Keyed.mem_of_get? hhorse, rfl⟩)
  have hridden : complete (.object horse) ∈ schema.possible (complete ridden) :=
    List.mem_filter.mpr ⟨hlisted, rfl⟩
  have hkept : complete (.object horse) ∈ schema.possible pet := .tail _ (.head _)
  have hboth : schema.typeOverlap (complete ridden) pet = true :=
    hiff.mpr (.inr ⟨lit "Horse", _, hhorse, .inr hridden, .inr hkept⟩)
  refine ⟨htrans _ (.list (.named (lit "Horse") false) none false) _ rfl rfl, hboth,
    hcomm ▸ hboth, ?_⟩
  exact (hobject (lit "Horse") _ (lit "Pet") pet hhorse hpet).1

end GraphQL.Paddock
