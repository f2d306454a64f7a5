import GraphQL.Proofs.Document.Rendering
import GraphQL.Proofs.Parser.Steps

/-! References to types and literals: the parser reads exactly what renders as one. -/

namespace GraphQL

/-- Tokens that a well-formed part is written with. -/
def Derives {α : Type} (schema : Schema) (wf : α → Bool) (pieces : α → List Piece) (a : α)
    (ts : List Token) : Prop :=
  wf a = true ∧ Writes schema (pieces a) ts

namespace Parser

variable {schema : Schema} {α β : Type} {s s' : Tokens} {ts rest : List Token}

theorem items_derives_iff {wf : α → Bool} {pieces : α → List Piece} {items : List α} :
    Items (Derives schema wf pieces) items ts ↔
      items.all wf = true ∧ Writes schema (items.flatMap pieces) ts := by
  induction items generalizing ts with
  | nil => simp [items_nil_iff]
  | cons a items ih =>
    rw [items_cons_iff, List.all_cons, Bool.and_eq_true, List.flatMap_cons, writes_append]
    simp only [ih]
    exact ⟨fun ⟨us, vs, h, ⟨ha, hus⟩, hall, hvs⟩ => ⟨⟨ha, hall⟩, us, vs, h, hus, hvs⟩,
      fun ⟨⟨ha, hall⟩, us, vs, h, hus, hvs⟩ => ⟨us, vs, h, ⟨ha, hus⟩, hall, hvs⟩⟩

theorem delimited_derives_iff {wf : α → Bool} {pieces : α → List Piece}
    {opening closing : Punctuator} {items : Located (List α)} :
    Delimited opening closing (Derives schema wf pieces) items ts ↔ items.value.all wf = true ∧
        Writes schema (Piece.between opening closing (items.value.flatMap pieces)) ts := by
  rw [writes_between]
  simp only [Delimited, ItemsUntil, items_derives_iff]
  exact ⟨fun ⟨_, h, us, h', hall, hus⟩ => ⟨hall, us, h' ▸ h, hus⟩,
    fun ⟨hall, us, h, hus⟩ => ⟨_, h, us, rfl, hall, hus⟩⟩

/-! ### References to types -/

theorem required_sound {t t' : Located TypeRef} (ht : t.value.isNonNull = false)
    (h : required t s = .ok t' s') : ∃ ts, s.values = ts ++ s'.values ∧
      t'.value.isUnsized = t.value.isUnsized ∧ t'.value.tokens = t.value.tokens ++ ts := by
  simp only [required, bind_ok, comes_ok] at h
  obtain ⟨_, _, ⟨rfl, rfl⟩, h⟩ := h
  split at h
  · obtain ⟨bang, s₁, hbang, h⟩ := bind_ok.mp h
    obtain ⟨rfl, rfl⟩ := pure_ok.mp h
    refine ⟨[.mark .exclamationMark], mark_sound hbang, ?_⟩
    obtain ⟨value, span⟩ := t
    cases value with
    | named name nonNull =>
      cases ht
      exact ⟨rfl, rfl⟩
    | list element size nonNull =>
      cases ht
      exact ⟨rfl, by simp [TypeRef.required, TypeRef.withNonNull, TypeRef.tokens,
        TypeRef.tokens.bangTokens]⟩
  · obtain ⟨rfl, rfl⟩ := pure_ok.mp h
    exact ⟨[], rfl, rfl, (List.append_nil _).symm⟩

theorem required_complete {t : Located TypeRef} {nonNull : Bool} (ht : t.value.isNonNull = false)
    (hs : s.values = TypeRef.tokens.bangTokens nonNull ++ rest)
    (hrest : Spares .exclamationMark rest) :
    ∃ t' s', required t s = .ok t' s' ∧ t'.value = t.value.withNonNull nonNull ∧
      s'.values = rest := by
  cases nonNull with
  | true =>
    obtain ⟨bang, s', hbang, -, hs'⟩ := mark_complete hs
    refine ⟨⟨t.value.required, ⟨t.span.start, bang.span.stop⟩⟩, s', ?_, rfl, hs'⟩
    exact bind_ok.mpr ⟨true, s, comes_true hs,
      bind_ok.mpr ⟨bang, s', hbang, pure_ok.mpr ⟨rfl, rfl⟩⟩⟩
  | false =>
    have hcomes : comes .exclamationMark s = .ok false s := by
      refine comes_spared ?_
      rw [hs]
      exact hrest
    refine ⟨t, s, bind_ok.mpr ⟨false, s, hcomes, pure_ok.mpr ⟨rfl, rfl⟩⟩, ?_, hs⟩
    obtain ⟨value, span⟩ := t
    cases value <;> cases ht <;> rfl

/-- Tokens of a reference to a type. -/
def IsTypeRef (t : Located TypeRef) (ts : List Token) : Prop :=
  t.value.isUnsized = true ∧ ts = t.value.tokens

theorem typeRefUpTo_sound (fuel : Nat) : Sound (typeRefUpTo fuel) IsTypeRef := by
  induction fuel with
  | zero => exact fun _ _ _ h => absurd h unexpected_not_ok
  | succ fuel ih =>
    intro s t s' h
    simp only [typeRefUpTo, bind_ok] at h
    obtain ⟨o, s₁, hskip, h⟩ := h
    rcases skip?_sound hskip with ⟨first, rfl, -, hs⟩ | ⟨rfl, rfl⟩
    · obtain ⟨element, s₂, helement, h⟩ := bind_ok.mp h
      obtain ⟨last, s₃, hlast, h⟩ := bind_ok.mp h
      obtain ⟨us, hus, hunsized, rfl⟩ := ih helement
      obtain ⟨vs, hvs, hsame, htokens⟩ := required_sound rfl h
      refine ⟨t.value.tokens, ?_, hsame.trans hunsized, rfl⟩
      rw [hs, hus, mark_sound hlast, hvs, htokens]
      simp [TypeRef.tokens, TypeRef.tokens.bangTokens]
    · obtain ⟨n, s₂, hn, h⟩ := bind_ok.mp h
      obtain ⟨vs, hvs, hsame, htokens⟩ := required_sound rfl h
      refine ⟨t.value.tokens, ?_, hsame, rfl⟩
      rw [name_sound hn, hvs, htokens]
      rfl

theorem typeRefUpTo_complete (fuel : Nat) : Complete (typeRefUpTo fuel) (·.value)
    (fun t ts => IsTypeRef t ts ∧ ts.length < fuel) (Spares .exclamationMark) := by
  induction fuel with
  | zero => rintro s t ts rest - ⟨-, hlen⟩; exact absurd hlen (Nat.not_lt_zero _)
  | succ fuel ih =>
    rintro s ⟨t, span⟩ ts rest hs ⟨⟨hunsized, rfl⟩, hlen⟩ hrest
    simp only [typeRefUpTo, bind_ok]
    cases t with
    | named name nonNull =>
      have hskip := skip?_none (m := .bracketOpen) hs (by simp)
      obtain ⟨n, s₁, hn, rfl, hs₁⟩ := name_complete hs
      obtain ⟨t', s', ht', hvalue, hs'⟩ :=
        required_complete (t := ⟨.named n.value false, n.span⟩) rfl hs₁ hrest
      exact ⟨t', s', ⟨_, _, hskip, bind_ok.mpr ⟨n, s₁, hn, ht'⟩⟩, hvalue, hs'⟩
    | list element size nonNull =>
      simp only [TypeRef.isUnsized, Bool.and_eq_true, Option.isNone_iff_eq_none] at hunsized
      obtain ⟨rfl, hunsized⟩ := hunsized
      rw [TypeRef.tokens, List.cons_append, List.append_assoc] at hs
      obtain ⟨first, s₁, hskip, -, hs₁⟩ := skip?_some hs
      obtain ⟨element', s₂, helement, hvalue, hs₂⟩ := ih (a := ⟨element, span⟩) hs₁
        ⟨⟨hunsized, rfl⟩, by simp [TypeRef.tokens] at hlen; omega⟩
        (by rintro _ ⟨⟩; nofun)
      obtain ⟨last, s₃, hlast, -, hs₃⟩ := mark_complete hs₂
      obtain ⟨t', s', ht', hvalue', hs'⟩ := required_complete
        (t := ⟨.list element'.value none false, ⟨first.span.start, last.span.stop⟩⟩) rfl hs₃ hrest
      refine ⟨t', s', ⟨_, _, hskip, bind_ok.mpr ⟨element', s₂, helement,
        bind_ok.mpr ⟨last, s₃, hlast, ht'⟩⟩⟩, ?_, hs'⟩
      have helem : element'.value = element := hvalue
      rw [hvalue', helem]
      rfl

theorem typeRef_sound : Sound typeRef IsTypeRef := Sound.fueled typeRefUpTo_sound

theorem typeRef_complete :
    Complete typeRef (·.value) IsTypeRef (Spares .exclamationMark) :=
  Complete.fueled typeRefUpTo_complete

/-! ### Literals -/

theorem itemPieces_eq (expected : Option TypeDef) (items : List (Located InputValue)) :
    InputValue.itemPieces schema expected items =
      items.flatMap fun v => v.value.pieces schema expected := by
  induction items with
  | nil => rfl
  | cons v items ih => rw [List.flatMap_cons, ← ih]; rfl

theorem entryPieces_eq (expected : Text → Option TypeDef)
    (entries : List (Located Text × Located InputValue)) :
    InputValue.entryPieces schema expected entries = entries.flatMap fun kv =>
      .name kv.1.value :: .mark .colon :: kv.2.value.pieces schema (expected kv.1.value) := by
  induction entries with
  | nil => rfl
  | cons kv entries ih => rw [List.flatMap_cons, ← ih]; rfl

theorem areWellFormed_eq (isConst : Bool) (expected : Option TypeDef)
    (items : List (Located InputValue)) :
    InputValue.areWellFormed schema isConst expected items =
      items.all fun v => v.value.isWellFormed schema isConst expected := by
  induction items with
  | nil => rfl
  | cons v items ih => rw [List.all_cons, ← ih]; rfl

theorem entriesWellFormed_eq (isConst : Bool) (expected : Text → Option TypeDef)
    (entries : List (Located Text × Located InputValue)) :
    InputValue.entriesWellFormed schema isConst expected entries =
      entries.all fun kv => kv.2.value.isWellFormed schema isConst (expected kv.1.value) := by
  induction entries with
  | nil => rfl
  | cons kv entries ih => rw [List.all_cons, ← ih]; rfl

theorem unlocatedItems_eq (items : List (Located InputValue)) :
    InputValue.unlocatedItems items = (items.map (·.value.unlocated)).map .unlocated := by
  induction items with
  | nil => rfl
  | cons v items ih => rw [List.map_cons, List.map_cons, ← ih]; rfl

/-- A key and a value without spans. -/
def bareEntry (kv : Located Text × Located InputValue) : Text × InputValue :=
  (kv.1.value, kv.2.value.unlocated)

theorem unlocatedEntries_eq (entries : List (Located Text × Located InputValue)) :
    InputValue.unlocatedEntries entries =
      (entries.map bareEntry).map fun kv => (.unlocated kv.1, .unlocated kv.2) := by
  induction entries with
  | nil => rfl
  | cons kv entries ih => rw [List.map_cons, List.map_cons, ← ih]; rfl

/-- Tokens of a literal where a type may be expected. -/
def IsLiteral (schema : Schema) (isConst : Bool) (expected : Option TypeDef) :
    Located InputValue → List Token → Prop :=
  Derives schema (fun v => v.value.isWellFormed schema isConst expected)
    fun v => v.value.pieces schema expected

/-- Tokens of a key, a colon and a literal. -/
def IsEntry (schema : Schema) (isConst : Bool) (expected : Text → Option TypeDef) :
    Located Text × Located InputValue → List Token → Prop :=
  Derives schema (fun kv => kv.2.value.isWellFormed schema isConst (expected kv.1.value))
    fun kv => .name kv.1.value :: .mark .colon :: kv.2.value.pieces schema (expected kv.1.value)

variable {isConst : Bool} {expected : Text → Option TypeDef}
  {value : Text → Parser (Located InputValue)}

theorem entry_sound (h : ∀ key, Sound (value key) (IsLiteral schema isConst (expected key))) :
    Sound (entry value) (IsEntry schema isConst expected) := by
  intro s kv s' hp
  simp only [entry, bind_ok] at hp
  obtain ⟨key, s₁, hkey, colon, s₂, hcolon, v, s₃, hv, hp⟩ := hp
  obtain ⟨rfl, rfl⟩ := pure_ok.mp hp
  obtain ⟨ts, hts, hwf, hwrites⟩ := h key.value hv
  refine ⟨.name key.value :: .mark .colon :: ts, ?_, hwf, ?_⟩
  · rw [name_sound hkey, mark_sound hcolon, hts]
    rfl
  · exact writes_name.mpr ⟨_, rfl, writes_mark.mpr ⟨_, rfl, hwrites⟩⟩

theorem entry_complete {n : Nat}
    (h : ∀ key, Complete (value key) (·.value.unlocated)
      (fun v ts => IsLiteral schema isConst (expected key) v ts ∧ ts.length < n) anything) :
    Complete (entry value) bareEntry
      (fun kv ts => IsEntry schema isConst expected kv ts ∧ ts.length < n) anything := by
  rintro s ⟨key, v⟩ ts rest hs ⟨⟨hwf, hwrites⟩, hlen⟩ -
  obtain ⟨_, rfl, hcolons⟩ := writes_name.mp hwrites
  obtain ⟨us, rfl, hus⟩ := writes_mark.mp hcolons
  obtain ⟨key', s₁, hkey, hkeyv, hs₁⟩ := name_complete hs
  obtain ⟨colon, s₂, hcolon, -, hs₂⟩ := mark_complete hs₁
  obtain ⟨v', s', hv, hsame, hs'⟩ := h key'.value (a := v) hs₂
    ⟨hkeyv ▸ ⟨hwf, hus⟩, by simp at hlen; omega⟩ trivial
  refine ⟨(key', v'), s', ?_, Prod.ext hkeyv hsame, hs'⟩
  simp only [entry, bind_ok]
  exact ⟨key', s₁, hkey, colon, s₂, hcolon, v', s', hv, pure_ok.mpr ⟨rfl, rfl⟩⟩

/-- Keys begin with a name. -/
theorem isEntry_starts : Starts (IsEntry schema isConst expected) fun t => ∃ n, t = .name n := by
  rintro kv ts ⟨-, hwrites⟩
  obtain ⟨us, rfl, -⟩ := writes_name.mp hwrites
  exact ⟨_, us, rfl, _, rfl⟩

/-- Literals begin with none of the closing marks. -/
theorem isLiteral_starts {expected : Option TypeDef} :
    Starts (IsLiteral schema isConst expected) fun t => t ≠ .mark .bracketClose := by
  rintro ⟨v, span⟩ ts ⟨-, hwrites⟩
  cases v with
  | null =>
    obtain ⟨us, rfl, -⟩ := writes_name.mp hwrites
    exact ⟨_, us, rfl, by simp⟩
  | scalar s =>
    obtain ⟨t, us, rfl, hfits, -⟩ := writes_cons.mp hwrites
    refine ⟨t, us, rfl, ?_⟩
    rintro rfl
    cases hfits
  | enum name =>
    obtain ⟨us, rfl, -⟩ := writes_name.mp hwrites
    exact ⟨_, us, rfl, by simp⟩
  | var name =>
    obtain ⟨us, rfl, -⟩ := writes_mark.mp hwrites
    exact ⟨_, us, rfl, by simp⟩
  | list items =>
    obtain ⟨us, rfl, -⟩ := writes_between.mp hwrites
    exact ⟨_, _, rfl, by simp⟩
  | object fields =>
    obtain ⟨us, rfl, -⟩ := writes_between.mp hwrites
    exact ⟨_, _, rfl, by simp⟩

theorem isLiteral_nameValue {expected : Option TypeDef} (text : Text) (span : Span) :
    IsLiteral schema isConst expected ⟨nameValue text, span⟩ [.name text] := by
  unfold nameValue
  split_ifs with htrue hfalse hnull
  · rw [eq_of_beq htrue]
    exact ⟨rfl, writes_cons.mpr ⟨_, [], rfl, .boolean expected true, writes_nil.mpr rfl⟩⟩
  · rw [eq_of_beq hfalse]
    exact ⟨rfl, writes_cons.mpr ⟨_, [], rfl, .boolean expected false, writes_nil.mpr rfl⟩⟩
  · rw [eq_of_beq hnull]
    exact ⟨rfl, writes_name.mpr ⟨[], rfl, writes_nil.mpr rfl⟩⟩
  · rw [beq_iff_eq] at htrue hfalse hnull
    exact ⟨by simp [InputValue.isWellFormed, htrue, hfalse, hnull],
      writes_name.mpr ⟨[], rfl, writes_nil.mpr rfl⟩⟩

theorem scalarLiteral_sound {l : Literal} {expected : Option TypeDef} {v : Located InputValue}
    (hs : s.front.value = .scalar l) (h : scalarLiteral schema expected l s = .ok v s') :
    s.values = .scalar l :: s'.values ∧ IsLiteral schema isConst expected v [.scalar l] := by
  simp only [scalarLiteral, bind_ok] at h
  obtain ⟨t, s₁, ht, h⟩ := h
  obtain ⟨hvalues, hfront⟩ := next_sound ht
  cases hread : schema.readScalar (expected.bind TypeDef.scalar?) l with
  | error e =>
    rw [hread] at h
    exact absurd h failAt_not_ok
  | ok value =>
    rw [hread] at h
    obtain ⟨rfl, rfl⟩ := pure_ok.mp h
    refine ⟨by rw [hvalues, ← hs, hfront], rfl, ?_⟩
    exact writes_cons.mpr ⟨_, [], rfl, .literal hread, writes_nil.mpr rfl⟩

theorem variableRef_sound {expected : Option TypeDef} :
    Sound variableRef (IsLiteral schema false expected) := by
  intro s v s' h
  simp only [variableRef, bind_ok] at h
  obtain ⟨dollar, s₁, hdollar, n, s₂, hn, h⟩ := h
  obtain ⟨rfl, rfl⟩ := pure_ok.mp h
  refine ⟨[.mark .dollar, .name n.value], by rw [mark_sound hdollar, name_sound hn]; rfl, rfl, ?_⟩
  exact writes_mark.mpr ⟨_, rfl, writes_name.mpr ⟨[], rfl, writes_nil.mpr rfl⟩⟩

theorem isLiteral_list_iff {expected : Option TypeDef}
    (items : Located (List (Located InputValue))) :
    IsLiteral schema isConst expected (items.map .list) ts ↔
      Delimited .bracketOpen .bracketClose (IsLiteral schema isConst expected) items ts := by
  unfold IsLiteral
  rw [delimited_derives_iff]
  simp only [Derives, Located.map, InputValue.isWellFormed, InputValue.pieces, areWellFormed_eq,
    itemPieces_eq]

theorem isLiteral_object_iff {expected : Option TypeDef}
    (entries : Located (List (Located Text × Located InputValue))) :
    IsLiteral schema isConst expected (entries.map .object) ts ↔ admitsObject expected = true ∧
      Delimited .curlyOpen .curlyClose (IsEntry schema isConst (fieldType schema expected)) entries
        ts := by
  unfold IsLiteral IsEntry
  rw [delimited_derives_iff]
  simp only [Derives, Located.map, InputValue.isWellFormed, InputValue.pieces, entriesWellFormed_eq,
    entryPieces_eq, Bool.and_eq_true, and_assoc]

theorem literalUpTo_sound (fuel : Nat) : ∀ expected,
    Sound (literalUpTo schema isConst fuel expected) (IsLiteral schema isConst expected) := by
  induction fuel with
  | zero => exact fun _ _ _ _ h => absurd h unexpected_not_ok
  | succ fuel ih =>
    intro expected s v s' h
    simp only [literalUpTo, bind_ok, peek_ok] at h
    obtain ⟨_, _, ⟨rfl, rfl⟩, h⟩ := h
    cases hfront : s.front.value with
    | endOfFile =>
      simp only [hfront] at h
      exact absurd h unexpected_not_ok
    | scalar l =>
      simp only [hfront] at h
      obtain ⟨hvalues, hliteral⟩ := scalarLiteral_sound hfront h
      exact ⟨[.scalar l], hvalues, hliteral⟩
    | name text =>
      simp only [hfront, bind_ok] at h
      obtain ⟨t, s₁, ht, h⟩ := h
      obtain ⟨rfl, rfl⟩ := pure_ok.mp h
      obtain ⟨hvalues, ht⟩ := next_sound ht
      refine ⟨[.name text], ?_, isLiteral_nameValue text t.span⟩
      rw [hvalues, ← ht, hfront]
      rfl
    | mark p =>
      cases p
      all_goals simp only [hfront] at h
      case bracketOpen =>
        obtain ⟨items, s₁, hitems, h⟩ := bind_ok.mp h
        obtain ⟨rfl, rfl⟩ := pure_ok.mp h
        obtain ⟨ts, hts, hdelimited⟩ := Sound.fueled (delimited_sound (ih expected)) hitems
        exact ⟨ts, hts, (isLiteral_list_iff items).mpr hdelimited⟩
      case curlyOpen =>
        split at h
        · next hadmits =>
          obtain ⟨entries, s₁, hentries, h⟩ := bind_ok.mp h
          obtain ⟨rfl, rfl⟩ := pure_ok.mp h
          obtain ⟨ts, hts, hdelimited⟩ := Sound.fueled
            (delimited_sound (entry_sound fun key => ih (fieldType schema expected key))) hentries
          exact ⟨ts, hts, (isLiteral_object_iff entries).mpr ⟨hadmits, hdelimited⟩⟩
        · exact absurd h unexpected_not_ok
      case dollar =>
        cases isConst with
        | true => exact absurd h unexpected_not_ok
        | false => exact variableRef_sound h
      all_goals exact absurd h unexpected_not_ok

theorem scalarLiteral_complete {l : Literal} {expected : Option TypeDef} {value : Scalar}
    (hs : s.values = .scalar l :: rest)
    (hread : schema.readScalar (expected.bind TypeDef.scalar?) l = .ok value) :
    ∃ v s', scalarLiteral schema expected l s = .ok v s' ∧ v.value = .scalar value ∧
      s'.values = rest := by
  obtain ⟨t, s', ht, -, hs'⟩ := next_complete hs
  refine ⟨⟨.scalar value, t.span⟩, s', ?_, rfl, hs'⟩
  simp only [scalarLiteral, bind_ok]
  refine ⟨t, s', ht, ?_⟩
  rw [hread]
  exact pure_ok.mpr ⟨rfl, rfl⟩

theorem variableRef_complete {name : Text} (hs : s.values = .mark .dollar :: .name name :: rest) :
    ∃ v s', variableRef s = .ok v s' ∧ v.value = .var name ∧ s'.values = rest := by
  obtain ⟨dollar, s₁, hdollar, -, hs₁⟩ := mark_complete hs
  obtain ⟨n, s', hn, rfl, hs'⟩ := name_complete hs₁
  refine ⟨⟨.var n.value, ⟨dollar.span.start, n.span.stop⟩⟩, s', ?_, rfl, hs'⟩
  simp only [variableRef, bind_ok]
  exact ⟨dollar, s₁, hdollar, n, s', hn, pure_ok.mpr ⟨rfl, rfl⟩⟩

/-- A name reads as the value it is written for. -/
theorem nameLiteral_complete {fuel : Nat} {expected : Option TypeDef} {text : Text}
    (hs : s.values = .name text :: rest) : ∃ v s',
      literalUpTo schema isConst (fuel + 1) expected s = .ok v s' ∧ v.value = nameValue text ∧
        s'.values = rest := by
  obtain ⟨t, s', ht, -, hs'⟩ := next_complete hs
  refine ⟨⟨nameValue text, t.span⟩, s', ?_, rfl, hs'⟩
  simp only [literalUpTo, bind_ok, peek_ok]
  refine ⟨_, _, ⟨rfl, rfl⟩, ?_⟩
  rw [front_value hs]
  exact bind_ok.mpr ⟨t, s', ht, pure_ok.mpr ⟨rfl, rfl⟩⟩

theorem nameValue_boolText (b : Bool) : nameValue (Scalar.boolText b) = .scalar (.boolean b) := by
  cases b <;> rfl

theorem nameValue_enum {expected : Option TypeDef} {name : Text}
    (h : (InputValue.enum name).isWellFormed schema isConst expected = true) :
    nameValue name = .enum name := by
  simp only [InputValue.isWellFormed, List.contains_eq_mem, List.mem_cons, List.not_mem_nil,
    or_false, Bool.not_eq_true', decide_eq_false_iff_not, not_or] at h
  simp only [nameValue, beq_iff_eq, h.1, h.2.1, h.2.2, if_false]

theorem literalUpTo_complete (fuel : Nat) : ∀ expected,
    Complete (literalUpTo schema isConst fuel expected) (·.value.unlocated)
      (fun v ts => IsLiteral schema isConst expected v ts ∧ ts.length < fuel) anything := by
  induction fuel with
  | zero => rintro expected s v ts rest - ⟨-, hlen⟩; exact absurd hlen (Nat.not_lt_zero _)
  | succ fuel ih =>
    rintro expected s ⟨v, span⟩ ts rest hs ⟨⟨hwf, hwrites⟩, hlen⟩ -
    cases v with
    | null =>
      obtain ⟨_, rfl, hnil⟩ := writes_name.mp hwrites
      obtain rfl := writes_nil.mp hnil
      obtain ⟨v', s', hv, hvalue, hs'⟩ := nameLiteral_complete hs
      exact ⟨v', s', hv, congrArg InputValue.unlocated hvalue, hs'⟩
    | enum name =>
      obtain ⟨_, rfl, hnil⟩ := writes_name.mp hwrites
      obtain rfl := writes_nil.mp hnil
      obtain ⟨v', s', hv, hvalue, hs'⟩ := nameLiteral_complete hs
      exact ⟨v', s', hv, congrArg InputValue.unlocated (hvalue.trans (nameValue_enum hwf)), hs'⟩
    | scalar value =>
      obtain ⟨t, _, rfl, hfits, hnil⟩ := writes_cons.mp hwrites
      obtain rfl := writes_nil.mp hnil
      cases hfits with
      | boolean _ b =>
        obtain ⟨v', s', hv, hvalue, hs'⟩ := nameLiteral_complete hs
        exact ⟨v', s', hv, congrArg InputValue.unlocated (hvalue.trans (nameValue_boolText b)), hs'⟩
      | literal hread =>
        obtain ⟨v', s', hv, hvalue, hs'⟩ := scalarLiteral_complete hs hread
        refine ⟨v', s', ?_, congrArg InputValue.unlocated hvalue, hs'⟩
        simp only [literalUpTo, bind_ok, peek_ok]
        refine ⟨_, _, ⟨rfl, rfl⟩, ?_⟩
        rw [front_value hs]
        exact hv
    | var name =>
      obtain ⟨_, rfl, hname⟩ := writes_mark.mp hwrites
      obtain ⟨_, rfl, hnil⟩ := writes_name.mp hname
      obtain rfl := writes_nil.mp hnil
      obtain ⟨v', s', hv, hvalue, hs'⟩ := variableRef_complete hs
      refine ⟨v', s', ?_, congrArg InputValue.unlocated hvalue, hs'⟩
      simp only [literalUpTo, bind_ok, peek_ok]
      refine ⟨_, _, ⟨rfl, rfl⟩, ?_⟩
      rw [front_value hs]
      have hconst : isConst = false := by simpa [InputValue.isWellFormed] using hwf
      rw [hconst]
      exact hv
    | list items =>
      have hitems := (isLiteral_list_iff ⟨items, span⟩).mp ⟨hwf, hwrites⟩
      have hcomplete : Complete (fueled (delimited (.mark .bracketOpen) (.mark .bracketClose)
          (literalUpTo schema isConst fuel expected))) _ _ anything :=
        Complete.fueled (delimited_complete (ih expected) (fun _ _ h => isLiteral_starts h.1)
          (fun h => h rfl) fun _ _ _ => trivial)
      obtain ⟨items', s', hp, hvalues, hs'⟩ := hcomplete hs (hitems.shorten hlen) trivial
      refine ⟨items'.map .list, s', ?_, ?_, hs'⟩
      · simp only [literalUpTo, bind_ok, peek_ok]
        refine ⟨_, _, ⟨rfl, rfl⟩, ?_⟩
        obtain ⟨_, rfl, -⟩ := hitems
        rw [front_value hs]
        exact bind_ok.mpr ⟨items', s', hp, pure_ok.mpr ⟨rfl, rfl⟩⟩
      · simp only [Located.map, InputValue.unlocated, unlocatedItems_eq]
        exact congrArg (fun vs => InputValue.list (vs.map .unlocated)) hvalues
    | object entries =>
      obtain ⟨hadmits, hentries⟩ :=
        (isLiteral_object_iff ⟨entries, span⟩).mp ⟨hwf, hwrites⟩
      have hcomplete : Complete (fueled (delimited (.mark .curlyOpen) (.mark .curlyClose)
          (entry fun key => literalUpTo schema isConst fuel (fieldType schema expected key)))) _ _
          anything :=
        Complete.fueled (delimited_complete (entry_complete fun key => ih _)
          (fun _ _ h => isEntry_starts h.1) (fun ⟨_, h⟩ => nomatch h) fun _ _ _ => trivial)
      obtain ⟨entries', s', hp, hvalues, hs'⟩ := hcomplete hs (hentries.shorten hlen) trivial
      refine ⟨entries'.map .object, s', ?_, ?_, hs'⟩
      · simp only [literalUpTo, bind_ok, peek_ok]
        refine ⟨_, _, ⟨rfl, rfl⟩, ?_⟩
        obtain ⟨_, rfl, -⟩ := hentries
        rw [front_value hs]
        simp only [hadmits, if_true]
        exact bind_ok.mpr ⟨entries', s', hp, pure_ok.mpr ⟨rfl, rfl⟩⟩
      · simp only [Located.map, InputValue.unlocated, unlocatedEntries_eq]
        exact congrArg (fun kvs => InputValue.object (kvs.map fun kv =>
          (.unlocated kv.1, .unlocated kv.2))) hvalues

theorem literal_sound (expected : Option TypeDef) :
    Sound (literal schema isConst expected) (IsLiteral schema isConst expected) :=
  Sound.fueled fun fuel => literalUpTo_sound fuel expected

theorem literal_complete (expected : Option TypeDef) :
    Complete (literal schema isConst expected) (·.value.unlocated)
      (IsLiteral schema isConst expected) anything :=
  Complete.fueled fun fuel => literalUpTo_complete fuel expected

end Parser

end GraphQL
