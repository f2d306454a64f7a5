import GraphQL.Proofs.Document.Hints

/-! What an expected type can refuse. It is heard on scalars, which are read by themselves if it
does not take them, and on objects, which it rules out unless it is an input object. Nothing else
that reads without a type fails to read with one. -/

namespace GraphQL

namespace InputValue

variable {schema : Schema} {isConst : Bool} {expected : Option TypeDef}

/-- What stands in a value where a type is expected, and the type that is expected there: that of a
list is expected of each item, and that of an input object has its own for each of its fields. -/
inductive Expects (schema : Schema) :
    Option TypeDef → InputValue → Option TypeDef → InputValue → Prop
  | here (expected : Option TypeDef) (v : InputValue) : Expects schema expected v expected v
  | item {expected inner : Option TypeDef} {items : List (Located InputValue)}
      {v : Located InputValue} {w : InputValue} : v ∈ items →
      Expects schema expected v.value inner w → Expects schema expected (.list items) inner w
  | field {expected inner : Option TypeDef} {fields : List (Located Text × Located InputValue)}
      {kv : Located Text × Located InputValue} {w : InputValue} : kv ∈ fields →
      Expects schema (Parser.fieldType schema expected kv.1.value) kv.2.value inner w →
      Expects schema expected (.object fields) inner w

/-- An object stands somewhere in a value where a type is expected that is no input object. -/
def Misplaces (schema : Schema) (expected : Option TypeDef) (v : InputValue) : Prop :=
  ∃ t fields, Expects schema expected v (some t) (.object fields) ∧ ∀ d, t ≠ .inputObject d

theorem not_admitsObject_iff : ¬ Parser.admitsObject expected = true ↔
    ∃ t, expected = some t ∧ ∀ d, t ≠ .inputObject d := by
  cases expected with
  | none => exact ⟨fun h => absurd rfl h, nofun⟩
  | some t => cases t <;> simp [Parser.admitsObject]

theorem misplaces_list {items : List (Located InputValue)} :
    Misplaces schema expected (.list items) ↔ ∃ v ∈ items, Misplaces schema expected v.value := by
  constructor
  · rintro ⟨t, fields, hexpects, ht⟩
    cases hexpects with
    | item hv hinner => exact ⟨_, hv, t, fields, hinner, ht⟩
  · rintro ⟨v, hv, t, fields, hinner, ht⟩
    exact ⟨t, fields, .item hv hinner, ht⟩

theorem misplaces_object {fields : List (Located Text × Located InputValue)} :
    Misplaces schema expected (.object fields) ↔ ¬ Parser.admitsObject expected = true ∨
      ∃ kv ∈ fields, Misplaces schema (Parser.fieldType schema expected kv.1.value) kv.2.value := by
  rw [not_admitsObject_iff]
  constructor
  · rintro ⟨t, inside, hexpects, ht⟩
    cases hexpects with
    | here => exact .inl ⟨t, rfl, ht⟩
    | field hkv hinner => exact .inr ⟨_, hkv, t, inside, hinner, ht⟩
  · rintro (⟨t, rfl, ht⟩ | ⟨kv, hkv, t, inside, hinner, ht⟩)
    · exact ⟨t, fields, .here _ _, ht⟩
    · exact ⟨t, inside, .field hkv hinner, ht⟩

/-- Only objects can be misplaced. -/
theorem not_misplaces_of_leaf {v : InputValue} (hlist : ∀ items, v ≠ .list items)
    (hobject : ∀ fields, v ≠ .object fields) : ¬ Misplaces schema expected v := by
  rintro ⟨t, fields, hexpects, -⟩
  cases hexpects with
  | here => exact hobject _ rfl
  | item => exact hlist _ rfl
  | field => exact hobject _ rfl

/-- A literal reads where a type is expected if it reads by itself and misplaces no object. -/
theorem isWellFormed_iff_of_expected (v : InputValue) (expected : Option TypeDef) :
    v.isWellFormed schema isConst expected = true ↔
      v.isWellFormed schema isConst none = true ∧ ¬ Misplaces schema expected v := by
  induction v generalizing expected with
  | null => simp [isWellFormed, not_misplaces_of_leaf]
  | scalar s => simp [isWellFormed, not_misplaces_of_leaf]
  | enum name => simp [isWellFormed, not_misplaces_of_leaf]
  | var name => simp [isWellFormed, not_misplaces_of_leaf]
  | list items ih =>
    simp only [isWellFormed, Parser.areWellFormed_eq, List.all_eq_true, misplaces_list, not_exists,
      not_and]
    rw [← forall₂_and]
    exact forall₂_congr fun v hv => ih v hv expected
  | object fields ih =>
    simp only [isWellFormed, Parser.entriesWellFormed_eq, Bool.and_eq_true, List.all_eq_true,
      misplaces_object, not_or, not_not, not_exists, not_and]
    rw [and_congr_right_iff.mpr fun _ => forall₂_congr fun kv hkv => ih kv hkv _, forall₂_and]
    constructor
    · rintro ⟨hadmits, hwf, hplaced⟩
      exact ⟨⟨rfl, hwf⟩, hadmits, hplaced⟩
    · rintro ⟨⟨-, hwf⟩, hadmits, hplaced⟩
      exact ⟨hadmits, hwf, hplaced⟩

theorem isWellFormed_blank (v : InputValue) (expected : Option TypeDef) :
    v.blank.isWellFormed schema isConst expected = true ↔
      v.isWellFormed schema isConst expected = true := by
  induction v generalizing expected with
  | null => rfl
  | scalar s => rfl
  | enum name => rfl
  | var name => rfl
  | list items ih =>
    simp only [blank, isWellFormed, Parser.areWellFormed_eq, blankItems_eq, List.all_eq_true,
      List.forall_mem_map]
    exact forall₂_congr fun v hv => ih v hv expected
  | object fields ih =>
    simp only [blank, isWellFormed, Parser.entriesWellFormed_eq, blankEntries_eq, List.all_eq_true,
      List.forall_mem_map, Bool.and_eq_true]
    exact and_congr_right fun _ => forall₂_congr fun kv hkv => ih kv hkv _

end InputValue

section Writes

variable {schema : Schema} {ts : List Token}

/-- Parts that are written one after another, each of which can be taken for a part of another
kind. -/
theorem exists_writes_flatMap {α β : Type} {f g : α → List Piece} {view : α → β} {as : List α}
    (h : ∀ a ∈ as, ∀ us, Writes schema (f a) us → ∃ b : α, view b = view a ∧ Writes schema (g b) us)
    (hwrites : Writes schema (as.flatMap f) ts) :
    ∃ bs : List α, bs.map view = as.map view ∧ Writes schema (bs.flatMap g) ts := by
  induction as generalizing ts with
  | nil => exact ⟨[], rfl, hwrites⟩
  | cons a as ih =>
    obtain ⟨ha, has⟩ := List.forall_mem_cons.mp h
    rw [List.flatMap_cons, writes_append] at hwrites
    obtain ⟨us, vs, rfl, hus, hvs⟩ := hwrites
    obtain ⟨b, hview, hb⟩ := ha us hus
    obtain ⟨bs, hviews, hbs⟩ := ih has hvs
    exact ⟨b :: bs, by rw [List.map_cons, List.map_cons, hview, hviews], hb.append hbs⟩

/-- A literal that a scalar reads by itself is read wherever a type is expected. -/
theorem Schema.exists_readScalar {l : Literal} {s : Scalar} (h : schema.readScalar none l = .ok s)
    (d : Option ScalarDef) : ∃ s', schema.readScalar d l = .ok s' := by
  cases d with
  | none => exact ⟨s, h⟩
  | some d =>
    rw [readScalar]
    split
    · exact ⟨_, rfl⟩
    · exact ⟨s, h⟩

/-- What a value is written with where no type is expected writes the same value where one is, but
for what its scalars hold. -/
theorem InputValue.exists_writes_pieces (v : InputValue) (expected : Option TypeDef)
    (h : Writes schema (v.pieces schema none) ts) :
    ∃ w : InputValue, w.blank = v.blank ∧ Writes schema (w.pieces schema expected) ts := by
  induction v generalizing expected ts with
  | null => exact ⟨_, rfl, h⟩
  | enum name => exact ⟨_, rfl, h⟩
  | var name => exact ⟨_, rfl, h⟩
  | scalar s =>
    obtain ⟨t, us, rfl, hfits, hnil⟩ := writes_cons.mp h
    cases hfits with
    | literal hread =>
      obtain ⟨s', hs'⟩ := Schema.exists_readScalar hread (expected.bind TypeDef.scalar?)
      exact ⟨.scalar s', rfl, .cons (.literal hs') hnil⟩
    | boolean _ b => exact ⟨.scalar (.boolean b), rfl, .cons (.boolean expected b) hnil⟩
  | list items ih =>
    rw [pieces, Parser.itemPieces_eq, writes_between] at h
    obtain ⟨us, rfl, hus⟩ := h
    have hitems : ∀ v ∈ items, ∀ us, Writes schema (v.value.pieces schema none) us →
        ∃ v' : Located InputValue, v'.map blank = v.map blank ∧
          Writes schema (v'.value.pieces schema expected) us := by
      intro v hv us hus
      obtain ⟨w, hw, hwrites⟩ := ih v hv expected hus
      exact ⟨⟨w, v.span⟩, by rw [Located.map, Located.map, hw], hwrites⟩
    obtain ⟨items', hviews, hwrites⟩ := exists_writes_flatMap hitems hus
    refine ⟨.list items', by rw [blank, blank, blankItems_eq, blankItems_eq, hviews], ?_⟩
    rw [pieces, Parser.itemPieces_eq, writes_between]
    exact ⟨us, rfl, hwrites⟩
  | object fields ih =>
    rw [pieces, Parser.entryPieces_eq, writes_between] at h
    obtain ⟨us, rfl, hus⟩ := h
    have hfields : ∀ kv ∈ fields, ∀ us,
        Writes schema (.name kv.1.value :: .mark .colon :: kv.2.value.pieces schema none) us →
        ∃ kv' : Located Text × Located InputValue, blankEntry kv' = blankEntry kv ∧
          Writes schema (.name kv'.1.value :: .mark .colon ::
            kv'.2.value.pieces schema (Parser.fieldType schema expected kv'.1.value)) us := by
      intro kv hkv us hus
      obtain ⟨_, rfl, hcolon⟩ := writes_name.mp hus
      obtain ⟨us, rfl, hvalue⟩ := writes_mark.mp hcolon
      obtain ⟨w, hw, hwrites⟩ := ih kv hkv (Parser.fieldType schema expected kv.1.value) hvalue
      refine ⟨(kv.1, ⟨w, kv.2.span⟩), ?_, (hwrites.mark _).name _⟩
      rw [blankEntry, blankEntry, Located.map, Located.map, hw]
    obtain ⟨fields', hviews, hwrites⟩ := exists_writes_flatMap hfields hus
    refine ⟨.object fields', by rw [blank, blank, blankEntries_eq, blankEntries_eq, hviews], ?_⟩
    rw [pieces, Parser.entryPieces_eq, writes_between]
    exact ⟨us, rfl, hwrites⟩

end Writes

namespace Parser

variable {schema : Schema} {isConst : Bool} {s s' : Tokens} {v : Located InputValue}

/-- A literal that reads by itself and misplaces no object reads where a type is expected, from the
same tokens and as the same value, but for what its scalars hold. -/
theorem literal_of_not_misplaces (h : literal schema isConst none s = .ok v s')
    {expected : Option TypeDef} (hplaced : ¬ v.value.Misplaces schema expected) :
    ∃ v', literal schema isConst expected s = .ok v' s' ∧
      v'.map InputValue.blank = v.map InputValue.blank := by
  obtain ⟨ts, hts, hwf, hwrites⟩ := literal_sound none h
  obtain ⟨w, hblank, hwrites'⟩ := v.value.exists_writes_pieces expected hwrites
  have hwf' : w.isWellFormed schema isConst expected = true := by
    rw [← InputValue.isWellFormed_blank, hblank, InputValue.isWellFormed_blank]
    exact (InputValue.isWellFormed_iff_of_expected _ _).mpr ⟨hwf, hplaced⟩
  obtain ⟨v', s₁, hv', -, -⟩ :=
    literal_complete expected (a := .unlocated w) hts ⟨hwf', hwrites'⟩ trivial
  obtain ⟨hsame, rfl⟩ := literal_agree schema schema isConst expected none hv' h
  exact ⟨v', hv', hsame⟩

/-- A literal that reads where a type is expected misplaces no object there. -/
theorem not_misplaces_of_literal (h : literal schema isConst none s = .ok v s')
    {expected : Option TypeDef} {v' : Located InputValue} {s₁ : Tokens}
    (h' : literal schema isConst expected s = .ok v' s₁) :
    ¬ v.value.Misplaces schema expected := by
  obtain ⟨ts, -, hwf, -⟩ := literal_sound expected h'
  obtain ⟨hsame, -⟩ := literal_agree schema schema isConst none expected h h'
  have hblank : v.value.blank = v'.value.blank := congrArg Located.value hsame
  rw [← InputValue.isWellFormed_blank, ← hblank, InputValue.isWellFormed_blank] at hwf
  exact ((InputValue.isWellFormed_iff_of_expected _ _).mp hwf).2

/-- What an expected type does to a literal that reads without one: it makes the literal fail
exactly where the literal misplaces an object, and otherwise the same tokens are read as the same
value, with the same spans, but for what its scalars hold. -/
theorem literal_expected (h : literal schema isConst none s = .ok v s')
    (expected : Option TypeDef) :
    ((∃ e s₁, literal schema isConst expected s = .error e s₁) ↔
      v.value.Misplaces schema expected) ∧
    (¬ v.value.Misplaces schema expected → ∃ v', literal schema isConst expected s = .ok v' s' ∧
      v'.map InputValue.blank = v.map InputValue.blank) := by
  refine ⟨⟨?_, ?_⟩, literal_of_not_misplaces h⟩
  · rintro ⟨e, s₁, hfails⟩
    by_contra hplaced
    obtain ⟨v', hv', -⟩ := literal_of_not_misplaces h hplaced
    rw [hfails] at hv'
    cases hv'
  · intro hmisplaced
    cases hrun : literal schema isConst expected s with
    | error e s₁ => exact ⟨e, s₁, rfl⟩
    | ok v' s₁ => exact absurd hmisplaced (not_misplaces_of_literal h hrun)

end Parser

namespace Parcel

/-- An input object with a field of a scalar and a field of its own type. -/
def box : TypeDef :=
  .inputObject ⟨lit "Box", none, [⟨lit "on", none, .named (lit "Flag") false, none⟩,
    ⟨lit "inner", none, .list (.named (lit "Box") false) none false, none⟩]⟩

def schema : Schema :=
  ⟨[(lit "Int", .scalar Scalars.int), (lit "Flag", .scalar Switch.flag), (lit "Box", box)],
    lit "Query", none, none, [], none⟩

/-- Boxes in a box, one of them with a field that no box has. -/
def packed : Text := lit "{on:1,inner:[{extra:{on:2}}]}"

/-- A box in a box whose scalar is an object. -/
def crushed : Text := lit "{on:1,inner:{on:{on:2}}}"

/-- The value that a text is read as by itself. -/
def read? (t : Text) : Option InputValue :=
  match Tokens.ofText t with
  | .error _ => none
  | .ok tokens =>
    match Parser.literal schema true none tokens with
    | .error _ _ => none
    | .ok v _ => some v.value

theorem exists_of_any_read? {t : Text} {p : InputValue → Bool} (h : (read? t).any p = true) :
    ∃ tokens v s', Tokens.ofText t = .ok tokens ∧
      Parser.literal schema true none tokens = .ok v s' ∧ p v.value = true := by
  unfold read? at h
  split at h
  · cases h
  next tokens htokens =>
    split at h
    · cases h
    next v s' hv => exact ⟨tokens, v, s', htokens, hv, h⟩

/-- By themselves both are read, and as a box the first one alone is. -/
theorem literal_expected_box :
    (∃ tokens v s' v', Tokens.ofText packed = .ok tokens ∧
      Parser.literal schema true none tokens = .ok v s' ∧ ¬ v.value.Misplaces schema (some box) ∧
      Parser.literal schema true (some box) tokens = .ok v' s' ∧
      v'.map InputValue.blank = v.map InputValue.blank) ∧
    ∃ tokens v s' e s₁, Tokens.ofText crushed = .ok tokens ∧
      Parser.literal schema true none tokens = .ok v s' ∧ v.value.Misplaces schema (some box) ∧
      Parser.literal schema true (some box) tokens = .error e s₁ := by
  constructor
  · have hpacked : (read? packed).any (·.isWellFormed schema true (some box)) = true := by
      decide +kernel
    obtain ⟨tokens, v, s', htokens, hv, hwf⟩ := exists_of_any_read? hpacked
    have hplaced := ((InputValue.isWellFormed_iff_of_expected _ _).mp hwf).2
    obtain ⟨v', hv', hsame⟩ := (Parser.literal_expected hv (some box)).2 hplaced
    exact ⟨tokens, v, s', v', htokens, hv, hplaced, hv', hsame⟩
  · have hcrushed : (read? crushed).any (fun v => v.isWellFormed schema true none &&
        !v.isWellFormed schema true (some box)) = true := by decide +kernel
    obtain ⟨tokens, v, s', htokens, hv, hwf⟩ := exists_of_any_read? hcrushed
    obtain ⟨halone, hrefused⟩ := Bool.and_eq_true_iff.mp hwf
    have hmisplaced : v.value.Misplaces schema (some box) := by
      by_contra hplaced
      rw [(InputValue.isWellFormed_iff_of_expected _ _).mpr ⟨halone, hplaced⟩] at hrefused
      cases hrefused
    obtain ⟨e, s₁, hfails⟩ := (Parser.literal_expected hv (some box)).1.mpr hmisplaced
    exact ⟨tokens, v, s', e, s₁, htokens, hv, hmisplaced, hfails⟩

end Parcel

end GraphQL
