import Mathlib.Data.List.Induction
import Mathlib.Data.List.Nodup
import GraphQL.Proofs.Schema.Relations

/-! What a schema is built from. Types are defined and names reserved in any order; what counts in
the end is the last definition of each name. The schema lists these in an order of its own, and it
does not matter how the registry came to hold them, nor in which order it gives them out. -/

namespace GraphQL

namespace Registry

/-- An edit of a registry. -/
inductive Edit where
  | define (d : TypeDef)
  | reserve (name : Text)

namespace Edit

def run (r : Registry) : Edit → Registry
  | define d => r.define d
  | reserve name => r.reserve name

/-- The definition that an edit gives to a name. -/
def definition? (name : Text) : Edit → Option TypeDef
  | define d => if d.name = name then some d else none
  | reserve _ => none

theorem definition?_eq_some_iff {name : Text} {edit : Edit} {d : TypeDef} :
    edit.definition? name = some d ↔ edit = .define d ∧ d.name = name := by
  cases edit with
  | define d' =>
    by_cases hname : d'.name = name
    · simp only [definition?, hname, if_true, Option.some.injEq, define.injEq]
      exact ⟨fun h => ⟨h, h ▸ hname⟩, And.left⟩
    · simp only [definition?, hname, if_false, reduceCtorEq, define.injEq, false_iff]
      rintro ⟨rfl, h⟩
      exact hname h
  | reserve other => simp [definition?]

def reserves (name : Text) : Edit → Bool
  | define _ => false
  | reserve other => other == name

/-- All that a registry has gone through, from the time when the built-in scalars are put in. -/
def history (edits : List Edit) : List Edit :=
  Scalars.builtin.map (fun d => define (.scalar d)) ++ edits

/-- The last definition of a name among edits. -/
def last? (edits : List Edit) (name : Text) : Option TypeDef :=
  (edits.filterMap (definition? name)).getLast?

/-- The last definition is there where there is one at all. -/
theorem isSome_last?_iff {edits : List Edit} {name : Text} :
    (last? edits name).isSome ↔ ∃ d, define d ∈ edits ∧ d.name = name := by
  rw [last?, List.getLast?_isSome]
  constructor
  · intro h
    obtain ⟨d, hd⟩ := List.exists_mem_of_ne_nil _ h
    obtain ⟨edit, hedit, hgives⟩ := List.mem_filterMap.mp hd
    obtain ⟨rfl, hname⟩ := definition?_eq_some_iff.mp hgives
    exact ⟨d, hedit, hname⟩
  · rintro ⟨d, hedit, hname⟩
    exact List.ne_nil_of_mem
      (List.mem_filterMap.mpr ⟨_, hedit, definition?_eq_some_iff.mpr ⟨rfl, hname⟩⟩)

/-- What stands under a name after edits. -/
def entry? (edits : List Edit) (name : Text) : Option TypeEntry :=
  match last? edits name with
  | some d => some (.defined d)
  | none => if edits.any (reserves name) then some (.placeholder (.named name true)) else none

theorem last?_snoc (edits : List Edit) (edit : Edit) (name : Text) :
    last? (edits ++ [edit]) name = (edit.definition? name).or (last? edits name) := by
  unfold last?
  rw [List.filterMap_append, List.getLast?_append]
  cases h : edit.definition? name <;> simp [h]

theorem name_of_last? {edits : List Edit} {name : Text} {d : TypeDef}
    (h : last? edits name = some d) : d.name = name := by
  obtain ⟨edit, -, hedit⟩ := List.mem_filterMap.mp (List.mem_of_getLast? h)
  exact (definition?_eq_some_iff.mp hedit).2

/-- A definition takes the place of what was there, and a reservation gives way to it. -/
theorem get?_foldl_run (edits : List Edit) (name : Text) :
    (edits.foldl run ⟨[]⟩).get? name = entry? edits name := by
  induction edits using List.reverseRecOn with
  | nil => rfl
  | append_singleton edits edit ih =>
    have ih : Keyed.get? (edits.foldl run ⟨[]⟩).types name = entry? edits name := ih
    rw [List.foldl_append, entry?, last?_snoc]
    cases edit with
    | define d =>
      change Keyed.get? (Keyed.put _ d.name (TypeEntry.defined d)) name = _
      rw [Keyed.get?_put, ih]
      by_cases hname : d.name = name
      · simp [definition?, hname]
      · simp [definition?, hname, Ne.symm hname, entry?, reserves]
    | reserve other =>
      change Keyed.get? (Keyed.putNew _ other (TypeEntry.placeholder (.named other true))) name = _
      rw [Keyed.get?_putNew, ih, entry?]
      cases hlast : last? edits name with
      | some d => simp [definition?]
      | none =>
        by_cases hname : other = name
        · by_cases hany : edits.any (reserves name) <;>
            simp [definition?, hname, hany, reserves]
        · simp [definition?, hname, Ne.symm hname, reserves]

end Edit

/-- A registry after edits. -/
def ofEdits (edits : List Edit) : Registry := edits.foldl Edit.run .initial

/-- The definition that a name has in the end. -/
def lastDefinition? (edits : List Edit) : Text → Option TypeDef := Edit.last? (Edit.history edits)

variable {edits : List Edit} {name : Text} {r : Registry}

theorem ofEdits_eq (edits : List Edit) :
    ofEdits edits = (Edit.history edits).foldl Edit.run ⟨[]⟩ := by
  rw [Edit.history, List.foldl_append, List.foldl_map]
  rfl

theorem built_ofEdits (edits : List Edit) : (ofEdits edits).Built := by
  apply List.foldlRecOn edits _ Built.initial
  intro r hr edit _
  cases edit with
  | define d => exact hr.define d
  | reserve name => exact hr.reserve name

/-- A registry gives out what it holds in no order of its own. -/
theorem get?_of_perm (hr : r.types.Perm (ofEdits edits).types) (name : Text) :
    r.get? name = Edit.entry? (Edit.history edits) name := by
  have hnodup := (built_ofEdits edits).wellNamed.nodup
  calc r.get? name = (ofEdits edits).get? name := Keyed.get?_of_perm hnodup hr name
    _ = Edit.entry? (Edit.history edits) name := by rw [ofEdits_eq, Edit.get?_foldl_run]

theorem any_reserves_history :
    (Edit.history edits).any (Edit.reserves name) = true ↔ .reserve name ∈ edits := by
  simp only [Edit.history, List.any_append, List.any_map, Bool.or_eq_true, List.any_eq_true]
  constructor
  · rintro (⟨d, -, hd⟩ | ⟨edit, hedit, hreserves⟩)
    · cases hd
    · cases edit with
      | define d => cases hreserves
      | reserve other => rwa [← eq_of_beq hreserves]
  · exact fun h => .inr ⟨.reserve name, h, beq_self_eq_true name⟩

/-- Nothing is left reserved just if each name that was reserved has a definition in the end. -/
theorem all_defined_iff (hr : r.types.Perm (ofEdits edits).types) :
    (∀ entry ∈ r.types, entry.2.definition?.isSome) ↔
      ∀ name, .reserve name ∈ edits → (lastDefinition? edits name).isSome := by
  have hnodup : r.types.keys.Nodup :=
    (hr.map _).nodup_iff.mpr (built_ofEdits edits).wellNamed.nodup
  have hget (name : Text) : r.get? name = Edit.entry? (Edit.history edits) name :=
    get?_of_perm hr name
  constructor
  · intro hall name hreserve
    have hentry := hget name
    rw [Edit.entry?, any_reserves_history.mpr hreserve] at hentry
    cases hlast : lastDefinition? edits name with
    | some d => rfl
    | none =>
      rw [show Edit.last? (Edit.history edits) name = none from hlast] at hentry
      exact hall _ (Keyed.mem_of_get? hentry)
  · rintro hall ⟨name, e⟩ hmem
    have hentry := (hget name).symm.trans (Keyed.get?_of_mem hnodup hmem)
    rw [Edit.entry?] at hentry
    cases hlast : Edit.last? (Edit.history edits) name with
    | some d =>
      rw [hlast] at hentry
      obtain rfl := Option.some.inj hentry
      rfl
    | none =>
      rw [hlast] at hentry
      by_cases hreserve : (Edit.history edits).any (Edit.reserves name) = true
      · have hdefined := hall name (any_reserves_history.mp hreserve)
        rw [lastDefinition?, hlast] at hdefined
        cases hdefined
      · simp [hreserve] at hentry

end Registry

namespace Schema

open Registry

/-! ### The order of types -/

/-- By kind, then by name. -/
def Precedes (a b : TypeDef) : Prop :=
  kindRank a.kind < kindRank b.kind ∨
    kindRank a.kind = kindRank b.kind ∧ Text.lt a.name b.name = true

def typeOrder : TypeDef → TypeDef → Ordering :=
  compareLex (compareOn (kindRank ·.kind)) (compareOn TypeDef.name)

instance : Std.TransCmp typeOrder := by
  unfold typeOrder
  infer_instance

variable {s : Schema} {a b : TypeDef}

theorem typeOrder_swap (a b : TypeDef) : typeOrder a b = (typeOrder b a).swap :=
  Std.OrientedCmp.eq_swap

theorem typeOrder_eq_lt_iff : typeOrder a b = .lt ↔ Precedes a b := by
  unfold typeOrder compareLex compareOn Precedes Text.lt
  rw [Ordering.then_eq_lt, Nat.compare_eq_lt, Nat.compare_eq_eq, beq_iff_eq]

theorem typeLE_iff : typeLE a b = true ↔ ¬ Precedes b a := by
  unfold typeLE Precedes
  by_cases hkind : kindRank a.kind = kindRank b.kind
  · simp [hkind]
  · simp [hkind, Ne.symm hkind]
    omega

theorem typeLE_eq (a b : TypeDef) : typeLE a b = (typeOrder a b).isLE := by
  rw [Bool.eq_iff_iff, typeLE_iff, ← typeOrder_eq_lt_iff, typeOrder_swap a]
  cases typeOrder b a <;> simp

theorem typeLE_trans (a b c : TypeDef) (hab : typeLE a b = true) (hbc : typeLE b c = true) :
    typeLE a c = true := by
  rw [typeLE_eq] at hab hbc ⊢
  exact Std.TransCmp.isLE_trans hab hbc

theorem typeLE_total (a b : TypeDef) : (typeLE a b || typeLE b a) = true := by
  rw [typeLE_eq, typeLE_eq, typeOrder_swap b]
  cases typeOrder a b <;> rfl

/-- Types that are in order and have different names follow on each other. -/
theorem precedes_of_typeLE (h : typeLE a b = true) (hne : a.name ≠ b.name) : Precedes a b := by
  rw [typeLE_eq] at h
  refine typeOrder_eq_lt_iff.mp ?_
  cases hab : typeOrder a b with
  | lt => rfl
  | eq =>
    unfold typeOrder at hab
    rw [compareLex_eq_eq] at hab
    exact absurd (Std.LawfulEqOrd.eq_of_compare hab.2) hne
  | gt =>
    rw [hab] at h
    cases h

theorem Precedes.asymm (h : Precedes a b) : ¬ Precedes b a := by
  rw [← typeOrder_eq_lt_iff] at h ⊢
  rw [typeOrder_swap, h]
  nofun

/-! ### What is listed -/

theorem mem_typeList_iff (hs : s.WellNamed) : a ∈ s.typeList ↔ s.type? a.name = some a := by
  unfold typeList
  rw [List.mem_mergeSort, List.mem_map]
  constructor
  · rintro ⟨⟨key, t⟩, hmem, rfl⟩
    exact hs.type?_of_mem hmem
  · exact fun h => ⟨_, Keyed.mem_of_get? h, rfl⟩

theorem nodup_typeList_names (hs : s.WellNamed) : (s.typeList.map TypeDef.name).Nodup := by
  have hnames : (s.types.map (·.2)).map TypeDef.name = s.types.keys := by
    rw [List.map_map]
    exact List.map_congr_left fun entry h => hs.named entry.1 entry.2 h
  have hperm : (s.typeList.map TypeDef.name).Perm s.types.keys :=
    hnames ▸ (List.mergeSort_perm _ _).map _
  exact hperm.nodup_iff.mpr hs.nodup

theorem typeList_pairwise (hs : s.WellNamed) : s.typeList.Pairwise Precedes := by
  have hsorted : s.typeList.Pairwise fun a b => typeLE a b = true :=
    List.pairwise_mergeSort typeLE_trans typeLE_total _
  have hdistinct := List.pairwise_map.mp (nodup_typeList_names hs)
  exact (hsorted.and hdistinct).imp fun h => precedes_of_typeLE h.1 h.2

/-- There is one way to list types. -/
theorem typeList_unique {s s' : Schema} (hs : s.WellNamed) (hs' : s'.WellNamed)
    (h : ∀ name, s.type? name = s'.type? name) : s.typeList = s'.typeList := by
  have hmem (t : TypeDef) : t ∈ s.typeList ↔ t ∈ s'.typeList := by
    rw [mem_typeList_iff hs, mem_typeList_iff hs', h]
  have hperm : s.typeList.Perm s'.typeList :=
    (List.perm_ext_iff_of_nodup (nodup_typeList_names hs).of_map
      (nodup_typeList_names hs').of_map).mpr hmem
  exact hperm.eq_of_pairwise (fun a b _ _ hab hba => absurd hba hab.asymm) (typeList_pairwise hs)
    (typeList_pairwise hs')

/-! ### What is built -/

theorem exists_typesOf_iff {m : Keyed TypeEntry} :
    (∃ types, typesOf m = .ok types) ↔ ∀ entry ∈ m, entry.2.definition?.isSome := by
  induction m with
  | nil => exact iff_of_true ⟨[], rfl⟩ (List.forall_mem_nil _)
  | cons entry m ih =>
    obtain ⟨name, e⟩ := entry
    rw [List.forall_mem_cons, ← ih, typesOf]
    cases he : e.definition? with
    | none => simp
    | some d => cases typesOf m <;> simp [Functor.map, Except.map]

theorem get?_typesOf {m : Keyed TypeEntry} {types : Keyed TypeDef} (h : typesOf m = .ok types)
    (name : Text) : types.get? name = (m.get? name).bind fun e => e.definition?.map complete := by
  induction m generalizing types with
  | nil =>
    cases h
    rfl
  | cons entry m ih =>
    obtain ⟨key, e⟩ := entry
    rw [typesOf] at h
    cases he : e.definition? with
    | none => simp [he] at h
    | some d =>
      cases hm : typesOf m with
      | error v => simp [he, hm, Functor.map, Except.map] at h
      | ok rest =>
        simp only [he, hm, Functor.map, Except.map, Except.ok.injEq] at h
        subst h
        rw [Keyed.get?_cons, Keyed.get?_cons, ih hm]
        by_cases hname : name = key <;> simp [hname, he]

theorem checkRoot_eq_ok_iff {types : Keyed TypeDef} {operation : OperationType} {name : Text} :
    checkRoot types operation name = .ok () ↔ ∃ d, types.get? name = some (.object d) := by
  refine ⟨object_of_checkRoot, ?_⟩
  rintro ⟨d, hd⟩
  simp [checkRoot, hd, TypeDef.isObject]

theorem checkOptionalRoot_eq_ok_iff {types : Keyed TypeDef} {operation : OperationType}
    {name? : Option Text} : checkOptionalRoot types operation name? = .ok () ↔
      ∀ name, name? = some name → ∃ d, types.get? name = some (.object d) := by
  cases name? with
  | none => simp [checkOptionalRoot]
  | some name => simp [checkOptionalRoot, checkRoot_eq_ok_iff]

theorem exists_build_iff {r : Registry} {query : Text} {mutation subscription : Option Text} :
    (∃ s, build r query mutation subscription = .ok s) ↔
      ∃ types, typesOf r.types = .ok types ∧
        ∀ name, some name ∈ [some query, mutation, subscription] →
          ∃ d, types.get? name = some (.object d) := by
  simp only [build_eq_ok_iff, checkRoot_eq_ok_iff, checkOptionalRoot_eq_ok_iff]
  rw [exists_comm]
  refine exists_congr fun types => ?_
  simp [or_imp, forall_and, eq_comm]

variable {edits : List Registry.Edit} {r : Registry} {query : Text}
  {mutation subscription : Option Text}

theorem get?_typesOf_ofEdits (hr : r.types.Perm (ofEdits edits).types) {types : Keyed TypeDef}
    (h : typesOf r.types = .ok types) (name : Text) :
    types.get? name = (lastDefinition? edits name).map complete := by
  have hentry : Keyed.get? r.types name = Edit.entry? (Edit.history edits) name :=
    get?_of_perm hr name
  rw [get?_typesOf h, hentry, Edit.entry?, lastDefinition?]
  cases Edit.last? (Edit.history edits) name with
  | some d => rfl
  | none =>
    cases (Edit.history edits).any (Edit.reserves name) with
    | true => rfl
    | false => rfl

theorem type?_build (hr : r.types.Perm (ofEdits edits).types)
    (h : build r query mutation subscription = .ok s) (name : Text) :
    s.type? name = (lastDefinition? edits name).map complete :=
  get?_typesOf_ofEdits hr (typesOf_of_build h) name

theorem isObject_typesOf_ofEdits (hr : r.types.Perm (ofEdits edits).types) {types : Keyed TypeDef}
    (h : typesOf r.types = .ok types) (name : Text) :
    (∃ d, types.get? name = some (.object d)) ↔
      ∃ d, lastDefinition? edits name = some (.object d) := by
  rw [get?_typesOf_ofEdits hr h]
  cases lastDefinition? edits name with
  | none => simp
  | some d => cases d <;> simp [complete]

theorem wellNamed_of_perm (hr : r.types.Perm (ofEdits edits).types)
    (h : build r query mutation subscription = .ok s) : s.WellNamed := by
  have hedits := (built_ofEdits edits).wellNamed
  exact wellNamed_build ⟨fun key d hd => hedits.named key d (hr.mem_iff.mp hd),
    (hr.map _).nodup_iff.mpr hedits.nodup⟩ h

/-- A schema of types that are defined under names. It lists each of them once, by kind and by name;
an interface stands for the objects that implement it, by name, and a union for those of its members
that are defined, in its own order. -/
structure ConsistsOf (s : Schema) (definition? : Text → Option TypeDef) : Prop where
  listed : ∀ t, t ∈ s.typeList ↔ ∃ name d, definition? name = some d ∧ t = complete d
  once : (s.typeList.map TypeDef.name).Nodup
  ordered : s.typeList.Pairwise Precedes
  implementers : ∀ i, .interface i ∈ s.typeList → ∃ ts, s.possibleTypes (.interface i) = .ok ts ∧
    (∀ t, t ∈ ts ↔ ∃ name d, definition? name = some (.object d) ∧ i.name ∈ d.interfaces ∧
      t = complete (.object d)) ∧
    ts.Pairwise fun a b => Text.lt a.name b.name = true
  members : ∀ u, .union u ∈ s.typeList → s.possibleTypes (.union u) =
    .ok (u.members.filterMap fun member => (definition? member).map complete)

theorem implements_complete_iff {interface : Text} {d : TypeDef} :
    implements interface (complete d) = true ↔ ∃ o, d = .object o ∧ interface ∈ o.interfaces := by
  cases d <;> simp [complete, implements]

theorem isObject_of_implements {interface : Text} {t : TypeDef}
    (h : implements interface t = true) : t.kind = .object := by
  cases t with
  | object => rfl
  | _ => cases h

theorem consistsOf (hs : s.WellNamed) {definition? : Text → Option TypeDef}
    (hname : ∀ name d, definition? name = some d → d.name = name)
    (htype : ∀ name, s.type? name = (definition? name).map complete) :
    s.ConsistsOf definition? := by
  have hlisted : ∀ t, t ∈ s.typeList ↔ ∃ name d, definition? name = some d ∧ t = complete d := by
    intro t
    rw [mem_typeList_iff hs, htype, Option.map_eq_some_iff]
    constructor
    · rintro ⟨d, hd, rfl⟩
      exact ⟨_, d, hd, rfl⟩
    · rintro ⟨name, d, hd, rfl⟩
      rw [name_complete, hname name d hd]
      exact ⟨d, hd, rfl⟩
  refine ⟨hlisted, nodup_typeList_names hs, typeList_pairwise hs, fun i _ => ?_, fun u _ => ?_⟩
  · refine ⟨s.typeList.filter (implements i.name), rfl, fun t => ?_, ?_⟩
    · rw [List.mem_filter, hlisted]
      constructor
      · rintro ⟨⟨name, d, hd, rfl⟩, himplements⟩
        obtain ⟨o, rfl, ho⟩ := implements_complete_iff.mp himplements
        exact ⟨name, o, hd, ho, rfl⟩
      · rintro ⟨name, o, hd, ho, rfl⟩
        exact ⟨⟨name, _, hd, rfl⟩, implements_complete_iff.mpr ⟨o, rfl, ho⟩⟩
    · refine ((typeList_pairwise hs).filter _).imp_of_mem fun {a b} ha hb hab => ?_
      -- all of them are objects, so that names alone decide
      have hkind : kindRank a.kind = kindRank b.kind := by
        rw [isObject_of_implements (List.mem_filter.mp ha).2,
          isObject_of_implements (List.mem_filter.mp hb).2]
      exact (hab.resolve_left (hkind ▸ Nat.lt_irrefl _)).2
  · have hmembers : s.possible (.union u) =
        u.members.filterMap fun member => (definition? member).map complete :=
      List.filterMap_congr fun member _ => htype member
    exact congrArg Except.ok hmembers

theorem possibleTypes_congr {s s' : Schema} (hlist : s.typeList = s'.typeList)
    (htype : ∀ name, s.type? name = s'.type? name) (t : TypeDef) :
    s.possibleTypes t = s'.possibleTypes t := by
  have hpossible : s.possible t = s'.possible t := by
    cases t with
    | interface i => exact congrArg _ hlist
    | union u => exact List.filterMap_congr fun member _ => htype member
    | _ => rfl
  rw [possibleTypes, possibleTypes, hpossible]

/-- What comes of edits on a registry, in whatever order it holds its types. A schema can be built
if each name that was reserved is also defined, before or after, and each root is an object in the
end. It then consists of the last definitions; and any edits with the same last definitions come to
the same types. -/
theorem build_determined (edits : List Registry.Edit) {r : Registry}
    (hr : r.types.Perm (ofEdits edits).types) (query : Text) (mutation subscription : Option Text) :
    ((∃ s, build r query mutation subscription = .ok s) ↔
      (∀ name, .reserve name ∈ edits →
        ∃ d, .define d ∈ Edit.history edits ∧ d.name = name) ∧
      ∀ name, some name ∈ [some query, mutation, subscription] →
        ∃ d, lastDefinition? edits name = some (.object d)) ∧
    ∀ s, build r query mutation subscription = .ok s →
      s.ConsistsOf (lastDefinition? edits) ∧
      ∀ edits' r' query' mutation' subscription' s',
        (∀ name, lastDefinition? edits' name = lastDefinition? edits name) →
        r'.types.Perm (ofEdits edits').types →
        build r' query' mutation' subscription' = .ok s' →
        s'.typeList = s.typeList ∧ ∀ t, s'.possibleTypes t = s.possibleTypes t := by
  constructor
  · have hdefined : (∃ types, typesOf r.types = .ok types) ↔ ∀ name, .reserve name ∈ edits →
        ∃ d, .define d ∈ Edit.history edits ∧ d.name = name := by
      simp only [exists_typesOf_iff, all_defined_iff hr, lastDefinition?, Edit.isSome_last?_iff]
    rw [exists_build_iff, ← hdefined, ← exists_and_right]
    refine exists_congr fun types => and_congr_right fun htypes => ?_
    exact forall₂_congr fun name _ => isObject_typesOf_ofEdits hr htypes name
  · intro s hs
    have hw := wellNamed_of_perm hr hs
    refine ⟨consistsOf hw (fun name d => Edit.name_of_last?) (type?_build hr hs), ?_⟩
    intro edits' r' query' mutation' subscription' s' hedits hr' hs'
    have htype (name : Text) : s'.type? name = s.type? name := by
      rw [type?_build hr hs, type?_build hr' hs', hedits]
    have hlist := typeList_unique (wellNamed_of_perm hr' hs') hw htype
    exact ⟨hlist, possibleTypes_congr hlist htype⟩

end Schema

namespace Notebook

open Registry Schema

def entry : ObjectDef := ⟨lit "Entry", none, [], []⟩

def note : ObjectDef := ⟨lit "Note", none, [], [lit "Entry"]⟩

def item : UnionDef := ⟨lit "Item", none, [lit "Sketch", lit "Note"]⟩

/-- A name is reserved after it was defined, another before, and a note is defined twice. -/
def edits : List Edit :=
  [.reserve (lit "Note"), .define (.object ⟨lit "Note", none, [], []⟩), .define (.interface entry),
    .reserve (lit "Entry"), .reserve (lit "Int"), .define (.union item), .define (.object note)]

/-- The registry gives its types out from the last to the first. -/
def registry : Registry := ⟨(ofEdits edits).types.reverse⟩

def schema : Schema :=
  match Schema.build registry (lit "Note") none none with
  | .ok s => s
  | .error _ => ⟨[], [], none, none, [], none⟩

/-- The note is an entry and an item, as it was defined last. -/
theorem build_determined_notes :
    registry.types.Perm (ofEdits edits).types ∧
    build registry (lit "Note") none none = .ok schema ∧
    (∃ ts, schema.possibleTypes (complete (.interface entry)) = .ok ts ∧
      complete (.object note) ∈ ts) ∧
    schema.possibleTypes (.union item) = .ok [complete (.object note)] := by
  have hperm : registry.types.Perm (ofEdits edits).types := List.reverse_perm _
  have hbuild : build registry (lit "Note") none none = .ok schema := rfl
  obtain ⟨-, hall⟩ := build_determined edits hperm (lit "Note") none none
  obtain ⟨hconsists, -⟩ := hall schema hbuild
  have hentry : complete (.interface entry) ∈ schema.typeList :=
    (hconsists.listed _).mpr ⟨lit "Entry", .interface entry, rfl, rfl⟩
  have hitem : .union item ∈ schema.typeList :=
    (hconsists.listed _).mpr ⟨lit "Item", .union item, rfl, rfl⟩
  obtain ⟨ts, hts, hmem, -⟩ := hconsists.implementers _ hentry
  exact ⟨hperm, hbuild, ⟨ts, hts, (hmem _).mpr ⟨lit "Note", note, rfl, .head _, rfl⟩⟩,
    hconsists.members item hitem⟩

end Notebook

end GraphQL
