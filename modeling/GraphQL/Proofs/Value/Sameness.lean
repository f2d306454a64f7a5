import Mathlib.Data.Fintype.EquivFin
import Mathlib.Data.List.Forall2
import GraphQL.Proofs.Document.Printing

/-! Equality up to spans. It is reflexive where no float is a NaN, it is transitive, it holds of
equal values, and neither spans nor the order of the entries of an object matter to it. It is no
equivalence: each entry of one object needs an equal one in the other, and an entry that stands
there twice leaves room for another. Apart from that it is symmetric. -/

namespace GraphQL

/-! ### Scalars -/

namespace Binary64

variable {x y z : Binary64}

theorem beq_iff : (x == y) = true ↔ x.isNaN = false ∧ y.isNaN = false ∧
    (x = y ∨ x.magnitude = 0 ∧ y.magnitude = 0) := by
  have hbits : x.bits = y.bits ↔ x = y := ⟨fun h => by cases x; cases y; cases h; rfl, congrArg _⟩
  simp only [BEq.beq, Bool.and_eq_true, Bool.or_eq_true, Bool.not_eq_true', decide_eq_true_eq,
    hbits, and_assoc]

instance : PartialEquivBEq Binary64 where
  symm := by
    intro x y h
    obtain ⟨hx, hy, heq⟩ := beq_iff.mp h
    exact beq_iff.mpr ⟨hy, hx, heq.imp Eq.symm And.symm⟩
  trans := by
    intro x y z h h'
    obtain ⟨hx, -, heq⟩ := beq_iff.mp h
    obtain ⟨-, hz, heq'⟩ := beq_iff.mp h'
    refine beq_iff.mpr ⟨hx, hz, ?_⟩
    rcases heq with rfl | ⟨hx0, hy0⟩
    · exact heq'
    · rcases heq' with rfl | ⟨-, hz0⟩
      · exact .inr ⟨hx0, hy0⟩
      · exact .inr ⟨hx0, hz0⟩

end Binary64

namespace Scalar

/-- Floats are equal as numbers, and other scalars when they are the same. -/
theorem beq_iff {s t : Scalar} : (s == t) = true ↔
    (∃ x y, s = .float x ∧ t = .float y ∧ (x == y) = true) ∨ (s = t ∧ ∀ x, s ≠ .float x) := by
  change Scalar.beq s t = true ↔ _
  cases s <;> cases t <;> simp [Scalar.beq]

instance : PartialEquivBEq Scalar where
  symm := by
    intro s t h
    rcases beq_iff.mp h with ⟨x, y, rfl, rfl, hxy⟩ | ⟨rfl, hs⟩
    · exact beq_iff.mpr (.inl ⟨y, x, rfl, rfl, BEq.symm hxy⟩)
    · exact h
  trans := by
    intro r s t h h'
    rcases beq_iff.mp h with ⟨x, y, rfl, rfl, hxy⟩ | ⟨rfl, -⟩
    · rcases beq_iff.mp h' with ⟨_, z, ⟨⟩, rfl, hyz⟩ | ⟨rfl, hs⟩
      · exact beq_iff.mpr (.inl ⟨x, z, rfl, rfl, BEq.trans hxy hyz⟩)
      · exact absurd rfl (hs y)
    · exact h'

/-- A scalar that is equal to itself, as all are but the floats that are not a number. -/
theorem beq_self_of_not_nan {s : Scalar} (h : ∀ x, s = .float x → x.isNaN = false) :
    (s == s) = true := by
  cases s with
  | float x =>
    have hself : (x == x) = true := Binary64.beq_iff.mpr ⟨h x rfl, h x rfl, .inl rfl⟩
    exact beq_iff.mpr (.inl ⟨x, x, rfl, rfl, hself⟩)
  | _ => exact beq_iff.mpr (.inr ⟨rfl, nofun⟩)

end Scalar

namespace InputValue

/-- No float in a value is a NaN. -/
inductive LacksNaN : InputValue → Prop
  | null : LacksNaN .null
  | scalar {s : Scalar} : (∀ x, s = .float x → x.isNaN = false) → LacksNaN (.scalar s)
  | enum (name : Text) : LacksNaN (.enum name)
  | var (name : Text) : LacksNaN (.var name)
  | list {items : List (Located InputValue)} : (∀ v ∈ items, LacksNaN v.value) →
      LacksNaN (.list items)
  | object {fields : List (Located Text × Located InputValue)} :
      (∀ kv ∈ fields, LacksNaN kv.2.value) → LacksNaN (.object fields)

/-- Two entries with one key and the same value. -/
def SameEntry (x y : Located Text × Located InputValue) : Prop :=
  x.1.value = y.1.value ∧ x.2.value.sameAs y.2.value = true

variable {u v w : InputValue} {items items' : List (Located InputValue)}
  {fields fields' : List (Located Text × Located InputValue)}

/-! ### What is the same, by the kind of value -/

theorem sameAs_eq (v w : InputValue) : v.sameAs w = match v, w with
    | null, null => true
    | scalar s, scalar t => s == t
    | enum a, enum b => a == b
    | var a, var b => a == b
    | list xs, list ys => sameItems xs (ys.map (·.value))
    | object xs, object ys =>
      xs.length == ys.length && sameFields xs (ys.map fun (k, v) => (k.value, v.value))
    | _, _ => false := by
  cases v <;> cases w <;> rfl

theorem null_sameAs : null.sameAs w = true ↔ w = .null := by
  cases w <;> simp [sameAs_eq]

theorem scalar_sameAs {s : Scalar} :
    (scalar s).sameAs w = true ↔ ∃ t, w = .scalar t ∧ (s == t) = true := by
  cases w <;> simp [sameAs_eq]

theorem enum_sameAs {name : Text} : (enum name).sameAs w = true ↔ w = .enum name := by
  cases w with
  | enum other =>
    simp only [sameAs_eq, beq_iff_eq, enum.injEq]
    exact eq_comm
  | _ => simp [sameAs_eq]

theorem var_sameAs {name : Text} : (var name).sameAs w = true ↔ w = .var name := by
  cases w with
  | var other =>
    simp only [sameAs_eq, beq_iff_eq, var.injEq]
    exact eq_comm
  | _ => simp [sameAs_eq]

theorem sameItems_eq_true_iff {ys : List InputValue} : sameItems items ys = true ↔
    List.Forall₂ (fun x y => x.value.sameAs y = true) items ys := by
  induction items generalizing ys with
  | nil => cases ys <;> simp [sameItems]
  | cons x items ih =>
    cases ys with
    | nil => simp [sameItems]
    | cons y ys => rw [sameItems, Bool.and_eq_true, ih, List.forall₂_cons]

theorem list_sameAs : (list items).sameAs w = true ↔ ∃ items', w = .list items' ∧
    List.Forall₂ (fun x y => x.value.sameAs y.value = true) items items' := by
  cases w with
  | list items' => simp [sameAs_eq, sameItems_eq_true_iff, List.forall₂_map_right_iff]
  | _ => simp [sameAs_eq]

theorem object_sameAs : (object fields).sameAs w = true ↔ ∃ fields', w = .object fields' ∧
    fields.length = fields'.length ∧ ∀ x ∈ fields, ∃ y ∈ fields', SameEntry x y := by
  cases w with
  | object fields' => simp [sameAs_eq, sameFields_eq_true_iff, SameEntry]
  | _ => simp [sameAs_eq]

/-! ### Laws -/

theorem LacksNaN.sameAs_self (h : v.LacksNaN) : v.sameAs v = true := by
  induction h with
  | null => rfl
  | scalar hs => exact scalar_sameAs.mpr ⟨_, rfl, Scalar.beq_self_of_not_nan hs⟩
  | enum name => exact enum_sameAs.mpr rfl
  | var name => exact var_sameAs.mpr rfl
  | list _ ih => exact list_sameAs.mpr ⟨_, rfl, List.forall₂_same.mpr ih⟩
  | object _ ih => exact object_sameAs.mpr ⟨_, rfl, rfl, fun x hx => ⟨x, hx, rfl, ih x hx⟩⟩

theorem sameAs_trans (h : u.sameAs v = true) (h' : v.sameAs w = true) : u.sameAs w = true := by
  induction u generalizing v w with
  | null =>
    obtain rfl := null_sameAs.mp h
    exact h'
  | scalar r =>
    obtain ⟨s, rfl, hrs⟩ := scalar_sameAs.mp h
    obtain ⟨t, rfl, hst⟩ := scalar_sameAs.mp h'
    exact scalar_sameAs.mpr ⟨t, rfl, BEq.trans hrs hst⟩
  | enum name =>
    obtain rfl := enum_sameAs.mp h
    exact h'
  | var name =>
    obtain rfl := var_sameAs.mp h
    exact h'
  | list items ih =>
    obtain ⟨ys, rfl, hitems⟩ := list_sameAs.mp h
    obtain ⟨zs, rfl, hitems'⟩ := list_sameAs.mp h'
    refine list_sameAs.mpr ⟨zs, rfl, ?_⟩
    clear h h'
    induction hitems generalizing zs with
    | nil => exact hitems'
    | cons hxy _ ihrest =>
      obtain ⟨hx, hmore⟩ := List.forall_mem_cons.mp ih
      cases hitems' with
      | cons hyz hrest => exact .cons (hx hxy hyz) (ihrest hmore _ hrest)
  | object fields ih =>
    obtain ⟨ys, rfl, hlength, hfields⟩ := object_sameAs.mp h
    obtain ⟨zs, rfl, hlength', hfields'⟩ := object_sameAs.mp h'
    refine object_sameAs.mpr ⟨zs, rfl, hlength.trans hlength', fun x hx => ?_⟩
    obtain ⟨y, hy, hkey, hxy⟩ := hfields x hx
    obtain ⟨z, hz, hkey', hyz⟩ := hfields' y hy
    exact ⟨z, hz, hkey.trans hkey', ih x hx hxy hyz⟩

theorem forall₂_of_beqItems (h : beqItems items items' = true) :
    List.Forall₂ (fun x y => x.value.beq y.value = true) items items' := by
  induction items generalizing items' with
  | nil =>
    cases items' with
    | nil => exact .nil
    | cons y ys => simp [beqItems] at h
  | cons x items ih =>
    cases items' with
    | nil => simp [beqItems] at h
    | cons y ys =>
      simp only [beqItems, Bool.and_eq_true] at h
      exact .cons h.1.1 (ih h.2)

theorem forall₂_of_beqFields (h : beqFields fields fields' = true) :
    List.Forall₂ (fun x y => x.2.value.beq y.2.value = true ∧ x.1.value = y.1.value) fields
      fields' := by
  induction fields generalizing fields' with
  | nil =>
    cases fields' with
    | nil => exact .nil
    | cons y ys => simp [beqFields] at h
  | cons x fields ih =>
    cases fields' with
    | nil => simp [beqFields] at h
    | cons y ys =>
      simp only [beqFields, Bool.and_eq_true, beq_iff_eq] at h
      exact .cons ⟨h.1.1.2, congrArg Located.value h.1.1.1⟩ (ih h.2)

theorem exists_mem_of_forall₂ {α β : Type} {R : α → β → Prop} {as : List α} {bs : List β}
    (h : List.Forall₂ R as bs) : ∀ a ∈ as, ∃ b ∈ bs, R a b := by
  induction h with
  | nil => exact List.forall_mem_nil _
  | cons hab _ ih =>
    refine List.forall_mem_cons.mpr ⟨⟨_, List.mem_cons_self, hab⟩, fun a ha => ?_⟩
    obtain ⟨b, hb, hR⟩ := ih a ha
    exact ⟨b, List.mem_cons_of_mem _ hb, hR⟩

/-- Values that are equal, spans included, are the same without them. -/
theorem sameAs_of_beq (h : (v == w) = true) : v.sameAs w = true := by
  change v.beq w = true at h
  induction v generalizing w with
  | null => cases w <;> simp_all [InputValue.beq, sameAs_eq]
  | scalar s => cases w <;> simp_all [InputValue.beq, sameAs_eq]
  | enum name => cases w <;> simp_all [InputValue.beq, sameAs_eq]
  | var name => cases w <;> simp_all [InputValue.beq, sameAs_eq]
  | list items ih =>
    cases w with
    | list items' =>
      have hitems := (List.forall₂_and_left _ _).mpr ⟨ih, forall₂_of_beqItems h⟩
      exact list_sameAs.mpr ⟨items', rfl, hitems.imp fun x y ⟨hx, hxy⟩ => hx hxy⟩
    | _ => simp [InputValue.beq] at h
  | object fields ih =>
    cases w with
    | object fields' =>
      have hfields := forall₂_of_beqFields h
      refine object_sameAs.mpr ⟨fields', rfl, hfields.length_eq, fun x hx => ?_⟩
      obtain ⟨y, hy, hxy, hkey⟩ := exists_mem_of_forall₂ hfields x hx
      exact ⟨y, hy, hkey, ih x hx hxy⟩
    | _ => simp [InputValue.beq] at h

/-! ### Spans and the order of entries -/

theorem forall₂_congr_of_mem {α β : Type} {R S : α → β → Prop} {as : List α} {bs : List β}
    (h : ∀ a ∈ as, ∀ b, R a b ↔ S a b) : List.Forall₂ R as bs ↔ List.Forall₂ S as bs := by
  induction as generalizing bs with
  | nil => rw [List.forall₂_nil_left_iff, List.forall₂_nil_left_iff]
  | cons a as ih =>
    obtain ⟨ha, has⟩ := List.forall_mem_cons.mp h
    cases bs with
    | nil => simp
    | cons b bs => rw [List.forall₂_cons, List.forall₂_cons, ha b, ih has]

/-- No span matters. -/
theorem sameAs_unlocated (v w : InputValue) :
    v.unlocated.sameAs w.unlocated = true ↔ v.sameAs w = true := by
  induction v generalizing w with
  | null => cases w <;> simp [unlocated, sameAs_eq]
  | scalar s => cases w <;> simp [unlocated, sameAs_eq]
  | enum name => cases w <;> simp [unlocated, sameAs_eq]
  | var name => cases w <;> simp [unlocated, sameAs_eq]
  | list items ih =>
    cases w with
    | list items' =>
      simp only [unlocated, Parser.unlocatedItems_eq, list_sameAs, list.injEq, exists_eq_left',
        List.forall₂_map_left_iff, List.forall₂_map_right_iff]
      exact forall₂_congr_of_mem fun x hx y => ih x hx y.value
    | _ => simp [unlocated, sameAs_eq]
  | object fields ih =>
    cases w with
    | object fields' =>
      simp only [unlocated, Parser.unlocatedEntries_eq, object_sameAs, object.injEq,
        exists_eq_left', List.length_map, List.mem_map, exists_exists_and_eq_and,
        forall_exists_index, and_imp, forall_apply_eq_imp_iff₂]
      refine and_congr_right fun _ => forall₂_congr fun x hx => exists_congr fun y => ?_
      exact and_congr_right fun _ => and_congr_right fun _ => ih x hx y.2.value
    | _ => simp [unlocated, sameAs_eq]

/-- Another order of the entries of an object that stands somewhere in a value. -/
inductive Reorders : InputValue → InputValue → Prop
  | here {fields fields' : List (Located Text × Located InputValue)} : fields.Perm fields' →
      Reorders (.object fields) (.object fields')
  | item {v w : InputValue} (before after : List (Located InputValue)) (span : Span) :
      Reorders v w →
      Reorders (.list (before ++ ⟨v, span⟩ :: after)) (.list (before ++ ⟨w, span⟩ :: after))
  | field {v w : InputValue} (before after : List (Located Text × Located InputValue))
      (key : Located Text) (span : Span) : Reorders v w →
      Reorders (.object (before ++ (key, ⟨v, span⟩) :: after))
        (.object (before ++ (key, ⟨w, span⟩) :: after))

/-- One item that is related like another can stand in its place. -/
theorem forall₂_replace_left {α β : Type} {R : α → β → Prop} {a a' : α}
    (h : ∀ b, R a b ↔ R a' b) (before after : List α) (bs : List β) :
    List.Forall₂ R (before ++ a :: after) bs ↔ List.Forall₂ R (before ++ a' :: after) bs := by
  induction before generalizing bs with
  | nil => cases bs <;> simp [h]
  | cons _ before ih => cases bs <;> simp [ih]

theorem forall₂_replace_right {α β : Type} {R : α → β → Prop} {b b' : β}
    (h : ∀ a, R a b ↔ R a b') (before after : List β) (as : List α) :
    List.Forall₂ R as (before ++ b :: after) ↔ List.Forall₂ R as (before ++ b' :: after) := by
  have hflip := forall₂_replace_left (R := flip R) h before after as
  exact ⟨fun h => (hflip.mp h.flip).flip, fun h => (hflip.mpr h.flip).flip⟩

theorem Reorders.sameAs_left (h : Reorders v w) (u : InputValue) :
    v.sameAs u = true ↔ w.sameAs u = true := by
  induction h generalizing u with
  | here hperm =>
    rw [object_sameAs, object_sameAs, hperm.length_eq]
    simp only [hperm.mem_iff]
  | item before after span _ ih =>
    rw [list_sameAs, list_sameAs]
    refine exists_congr fun items' => and_congr_right fun _ => ?_
    exact forall₂_replace_left (fun x => ih x.value) before after items'
  | field before after key span _ ih =>
    rw [object_sameAs, object_sameAs]
    simp only [List.length_append, List.length_cons, List.forall_mem_append, List.forall_mem_cons,
      SameEntry, ih]

theorem Reorders.sameAs_right (h : Reorders v w) (u : InputValue) :
    u.sameAs v = true ↔ u.sameAs w = true := by
  induction h generalizing u with
  | here hperm =>
    cases u with
    | object fields =>
      simp only [object_sameAs, object.injEq, exists_eq_left', hperm.length_eq, hperm.mem_iff]
    | _ => simp [sameAs_eq]
  | item before after span _ ih =>
    cases u with
    | list items =>
      simp only [list_sameAs, list.injEq, exists_eq_left']
      exact forall₂_replace_right (fun x => ih x.value) before after items
    | _ => simp [sameAs_eq]
  | field before after key span _ ih =>
    cases u with
    | object fields =>
      simp only [object_sameAs, object.injEq, exists_eq_left', List.length_append, List.length_cons,
        List.mem_append, List.mem_cons, or_and_right, exists_or, exists_eq_left, SameEntry, ih]
    | _ => simp [sameAs_eq]

/-! ### Symmetry -/

/-- An object that stands somewhere in a value has an entry twice: the same value under one key. -/
inductive Repeats : InputValue → Prop
  | here {fields rest : List (Located Text × Located InputValue)}
      {x y : Located Text × Located InputValue} : fields.Perm (x :: y :: rest) → SameEntry x y →
      Repeats (.object fields)
  | item {items : List (Located InputValue)} {v : Located InputValue} : v ∈ items →
      Repeats v.value → Repeats (.list items)
  | field {fields : List (Located Text × Located InputValue)}
      {kv : Located Text × Located InputValue} : kv ∈ fields → Repeats kv.2.value →
      Repeats (.object fields)

/-- As many of one kind as of another, where each of the first has a partner and no two of them
share one: then each of the second is a partner. -/
theorem exists_mem_of_pairwise {α β : Type} {R : α → β → Prop} {as : List α} {bs : List β}
    (hlength : as.length = bs.length) (hR : ∀ a ∈ as, ∃ b ∈ bs, R a b)
    (hdistinct : as.Pairwise fun a a' => ∀ b, R a b → ¬ R a' b) : ∀ b ∈ bs, ∃ a ∈ as, R a b := by
  induction as generalizing bs with
  | nil =>
    obtain rfl := List.length_eq_zero_iff.mp hlength.symm
    exact List.forall_mem_nil _
  | cons a as ih =>
    obtain ⟨⟨b, hb, hab⟩, hrest⟩ := List.forall_mem_cons.mp hR
    obtain ⟨hfirst, hmore⟩ := List.pairwise_cons.mp hdistinct
    obtain ⟨before, after, rfl⟩ := List.append_of_mem hb
    have hothers : ∀ a' ∈ as, ∃ b' ∈ before ++ after, R a' b' := by
      intro a' ha'
      obtain ⟨b', hb', hab'⟩ := hrest a' ha'
      have hne : b' ≠ b := by
        rintro rfl
        exact hfirst a' ha' b' hab hab'
      exact ⟨b', by simpa [hne] using hb', hab'⟩
    have hpartners := ih (by simp at hlength ⊢; omega) hothers hmore
    intro b' hb'
    by_cases hbb : b' = b
    · exact ⟨a, List.mem_cons_self, hbb ▸ hab⟩
    · obtain ⟨a', ha', hab'⟩ := hpartners b' (by simpa [hbb] using hb')
      exact ⟨a', List.mem_cons_of_mem _ ha', hab'⟩

/-- A value without a repeated entry is the same as what is the same as it. -/
theorem sameAs_symm (hv : ¬ v.Repeats) (h : v.sameAs w = true) : w.sameAs v = true := by
  induction v generalizing w with
  | null =>
    obtain rfl := null_sameAs.mp h
    exact h
  | scalar s =>
    obtain ⟨t, rfl, hst⟩ := scalar_sameAs.mp h
    exact scalar_sameAs.mpr ⟨s, rfl, BEq.symm hst⟩
  | enum name =>
    obtain rfl := enum_sameAs.mp h
    exact h
  | var name =>
    obtain rfl := var_sameAs.mp h
    exact h
  | list items ih =>
    obtain ⟨items', rfl, hitems⟩ := list_sameAs.mp h
    have hsymm : ∀ x ∈ items, ∀ y, x.value.sameAs y = true → y.sameAs x.value = true :=
      fun x hx y => ih x hx fun hx' => hv (.item hx hx')
    have hback := ((List.forall₂_and_left _ _).mpr ⟨hsymm, hitems⟩).imp
      fun x y ⟨hx, hxy⟩ => hx y.value hxy
    exact list_sameAs.mpr ⟨items, rfl, hback.flip⟩
  | object fields ih =>
    obtain ⟨fields', rfl, hlength, hfields⟩ := object_sameAs.mp h
    have hsymm : ∀ x ∈ fields, ∀ y, SameEntry x y → SameEntry y x := fun x hx y hxy =>
      ⟨hxy.1.symm, ih x hx (fun hx' => hv (.field hx hx')) hxy.2⟩
    -- two entries that are the same as one of the other object are the same as each other
    have hdistinct : fields.Pairwise fun x x' => ∀ y, SameEntry x y → ¬ SameEntry x' y := by
      rw [List.pairwise_iff_forall_sublist]
      intro x x' hsub y hxy hxy'
      obtain ⟨rest, hperm⟩ := hsub.exists_perm_append
      have hback := hsymm x' (hsub.subset (by simp)) y hxy'
      exact hv (.here hperm ⟨hxy.1.trans hback.1, sameAs_trans hxy.2 hback.2⟩)
    refine object_sameAs.mpr ⟨fields, rfl, hlength.symm, fun y hy => ?_⟩
    obtain ⟨x, hx, hxy⟩ := exists_mem_of_pairwise hlength hfields hdistinct y hy
    exact ⟨x, hx, hsymm x hx y hxy⟩

/-- The second of two entries that are the same leaves room for another in place of the first. -/
theorem exists_sameAs_of_perm {rest : List (Located Text × Located InputValue)}
    {x y : Located Text × Located InputValue} (hfields : ∀ kv ∈ fields, LacksNaN kv.2.value)
    (hperm : fields.Perm (x :: y :: rest)) (hxy : SameEntry x y) :
    ∃ w, (object fields).sameAs w = true ∧ ¬ w.sameAs (object fields) = true := by
  obtain ⟨fresh, hfresh⟩ := Infinite.exists_notMem_finset (fields.map (·.1.value)).toFinset
  rw [List.mem_toFinset] at hfresh
  refine ⟨object ((.unlocated fresh, y.2) :: y :: rest), ?_, ?_⟩
  · refine object_sameAs.mpr ⟨_, rfl, hperm.length_eq, fun kv hkv => ?_⟩
    rcases List.mem_cons.mp (hperm.subset hkv) with rfl | hother
    · exact ⟨y, by simp, hxy⟩
    · exact ⟨kv, List.mem_cons_of_mem _ hother, rfl, (hfields kv hkv).sameAs_self⟩
  · intro hback
    obtain ⟨_, ⟨⟩, -, hentries⟩ := object_sameAs.mp hback
    obtain ⟨kv, hkv, hkey, -⟩ := hentries _ List.mem_cons_self
    exact hfresh (List.mem_map.mpr ⟨kv, hkv, hkey.symm⟩)

/-- A value with a repeated entry is the same as some value that is not the same as it. -/
theorem exists_sameAs_of_repeats (hv : v.LacksNaN) (h : v.Repeats) :
    ∃ w, v.sameAs w = true ∧ ¬ w.sameAs v = true := by
  induction h with
  | here hperm hxy =>
    cases hv with
    | object hfields => exact exists_sameAs_of_perm hfields hperm hxy
  | @item items v hmem _ ih =>
    cases hv with
    | list hitems =>
      obtain ⟨w, hvw, hwv⟩ := ih (hitems v hmem)
      obtain ⟨before, after, rfl⟩ := List.append_of_mem hmem
      have hself : ∀ x ∈ before ++ v :: after, x.value.sameAs x.value = true :=
        fun x hx => (hitems x hx).sameAs_self
      obtain ⟨hbefore, hafter⟩ := List.forall_mem_append.mp hself
      refine ⟨list (before ++ ⟨w, v.span⟩ :: after), list_sameAs.mpr ⟨_, rfl, ?_⟩, fun hback => ?_⟩
      · exact List.rel_append (List.forall₂_same.mpr hbefore)
          (.cons hvw (List.forall₂_same.mpr fun x hx => hafter x (List.mem_cons_of_mem _ hx)))
      · obtain ⟨_, ⟨⟩, hpairs⟩ := list_sameAs.mp hback
        have hrest := List.forall₂_drop before.length hpairs
        rw [List.drop_left, List.drop_left] at hrest
        cases hrest with
        | cons hwv' _ => exact hwv hwv'
  | @field fields kv hmem _ ih =>
    cases hv with
    | object hfields =>
      by_cases htwice : ∃ x y rest, fields.Perm (x :: y :: rest) ∧ SameEntry x y
      · obtain ⟨x, y, rest, hperm, hxy⟩ := htwice
        exact exists_sameAs_of_perm hfields hperm hxy
      obtain ⟨w, hvw, hwv⟩ := ih (hfields kv hmem)
      obtain ⟨before, after, rfl⟩ := List.append_of_mem hmem
      have hself : ∀ x ∈ before ++ kv :: after, SameEntry x x :=
        fun x hx => ⟨rfl, (hfields x hx).sameAs_self⟩
      refine ⟨object (before ++ (kv.1, ⟨w, kv.2.span⟩) :: after),
        object_sameAs.mpr ⟨_, rfl, by simp, fun x hx => ?_⟩, fun hback => ?_⟩
      · rcases List.mem_append.mp hx with hx' | hx'
        · exact ⟨x, List.mem_append_left _ hx', hself x hx⟩
        · rcases List.mem_cons.mp hx' with rfl | hx'
          · exact ⟨(x.1, ⟨w, x.2.span⟩), by simp, rfl, hvw⟩
          · exact ⟨x, by simp [hx'], hself x hx⟩
      · obtain ⟨_, ⟨⟩, -, hentries⟩ := object_sameAs.mp hback
        obtain ⟨x, hx, hkey, hwx⟩ := hentries (kv.1, ⟨w, kv.2.span⟩) (by simp)
        -- the entry it goes with is another one, and the same as the one that was replaced
        have hother : x ∈ before ++ after := by
          have hne : x ≠ kv := by
            rintro rfl
            exact hwv hwx
          simpa [hne] using hx
        obtain ⟨left, right, hsplit⟩ := List.append_of_mem hother
        have hfront : (before ++ kv :: after).Perm (kv :: x :: (left ++ right)) := by
          refine List.perm_middle.trans (List.Perm.cons kv ?_)
          rw [hsplit]
          exact List.perm_middle
        exact htwice ⟨kv, x, left ++ right, hfront, hkey, sameAs_trans hvw hwx⟩

/-- What is to be known of equality up to spans. Where no float is a NaN it is reflexive, and it is
transitive; values that are equal with their spans are the same; and it does not matter which spans
there are, nor in which order the entries of an object are, however deep it stands. It is symmetric
at just those values in which no object has an entry twice: at any other, some value is the same one
way and not the other. -/
theorem sameAs_laws (v : InputValue) :
    (v.LacksNaN → v.sameAs v = true) ∧
    (∀ u w : InputValue, u.sameAs v = true → v.sameAs w = true → u.sameAs w = true) ∧
    (∀ w : InputValue, (v == w) = true → v.sameAs w = true) ∧
    (∀ v' w w' : InputValue, v.unlocated = v'.unlocated → w.unlocated = w'.unlocated →
      v.sameAs w = v'.sameAs w') ∧
    (∀ v' : InputValue, v.Reorders v' → ∀ w, v.sameAs w = v'.sameAs w ∧
      w.sameAs v = w.sameAs v') ∧
    (v.LacksNaN → ((∀ w, v.sameAs w = true → w.sameAs v = true) ↔ ¬ v.Repeats)) := by
  refine ⟨fun hv => hv.sameAs_self, fun u w => sameAs_trans, fun w => sameAs_of_beq,
    fun v' w w' hv hw => ?_, fun v' h w => ⟨?_, ?_⟩, fun hv => ⟨fun hsymm h => ?_, ?_⟩⟩
  · rw [Bool.eq_iff_iff, ← sameAs_unlocated v, ← sameAs_unlocated v', hv, hw]
  · exact Bool.eq_iff_iff.mpr (h.sameAs_left w)
  · exact Bool.eq_iff_iff.mpr (h.sameAs_right w)
  · obtain ⟨w, hvw, hwv⟩ := exists_sameAs_of_repeats hv h
    exact hwv (hsymm w hvw)
  · exact fun hv w => sameAs_symm hv

end InputValue

namespace Doubled

open InputValue

def one : InputValue := .scalar (.int 1)

/-- The same entry twice. -/
def twice : InputValue := .ofFields [(lit "a", one), (lit "a", one)]

/-- The entry once, and another one under its key. -/
def once : InputValue := .ofFields [(lit "a", one), (lit "a", .scalar (.int 2))]

theorem lacksNaN_twice : twice.LacksNaN := by
  have hone : one.LacksNaN := .scalar nofun
  exact .object (by simp [hone, Located.unlocated])

theorem repeats_twice : twice.Repeats := .here .rfl ⟨rfl, rfl⟩

/-- One way they are the same, and the other way they are not. -/
theorem sameAs_laws_twice : twice.LacksNaN ∧ twice.Repeats ∧ twice.sameAs once = true ∧
    once.sameAs twice = false ∧ ¬ ∀ w, twice.sameAs w = true → w.sameAs twice = true :=
  ⟨lacksNaN_twice, repeats_twice, rfl, rfl,
    fun hsymm => ((sameAs_laws twice).2.2.2.2.2 lacksNaN_twice).mp hsymm repeats_twice⟩

end Doubled

end GraphQL
