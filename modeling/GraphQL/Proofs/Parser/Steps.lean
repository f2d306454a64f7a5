import Mathlib.Data.List.Forall2
import GraphQL.Parser.Tokens

/-! Parsers step by step: what each takes from the tokens that are left, and when it takes it. A
parser is sound for a language when what it takes is written as the language says of its answer, and
complete when it takes whatever is written so, up to spans. -/

namespace GraphQL

/-- The tokens left, without their spans. -/
def Tokens.values (s : Tokens) : List Token := s.pending.map (·.value)

namespace Parser

variable {α β γ : Type} {s s' : Tokens} {p : Parser α} {more : List Token} {m : Punctuator}

theorem bind_ok {f : α → Parser β} {b : β} :
    (p >>= f) s = .ok b s' ↔ ∃ a s₁, p s = .ok a s₁ ∧ f a s₁ = .ok b s' := by
  change EStateM.bind p f s = .ok b s' ↔ _
  unfold EStateM.bind
  cases p s with
  | ok a s₁ => simp
  | error e s₁ => simp

theorem pure_ok {a b : α} : (pure a : Parser α) s = .ok b s' ↔ a = b ∧ s = s' := by
  change EStateM.Result.ok a s = .ok b s' ↔ _
  rw [EStateM.Result.ok.injEq]

theorem map_ok {f : α → β} {b : β} :
    (f <$> p) s = .ok b s' ↔ ∃ a, p s = .ok a s' ∧ f a = b := by
  change EStateM.map f p s = .ok b s' ↔ _
  unfold EStateM.map
  cases p s with
  | ok a s₁ =>
    simp only [EStateM.Result.ok.injEq]
    exact ⟨fun ⟨h, h'⟩ => ⟨a, ⟨rfl, h'⟩, h⟩, fun ⟨_, ⟨ha, h'⟩, h⟩ => ⟨ha ▸ h, h'⟩⟩
  | error e s₁ => simp

theorem failAt_not_ok {error : ParseError} {span : Span} {a : α} :
    failAt error span s ≠ .ok a s' := by
  intro h
  cases h

theorem unexpected_not_ok {a : α} : unexpected s ≠ .ok a s' := by
  intro h
  obtain ⟨t, s₁, -, h⟩ := bind_ok.mp h
  exact failAt_not_ok h

/-- Looking at the next token takes nothing. -/
theorem peek_ok {t : Located Token} : peek s = .ok t s' ↔ s.front = t ∧ s = s' := by
  simp only [peek, EStateM.Result.ok.injEq]

theorem front_value {t : Token} (h : s.values = t :: more) : s.front.value = t := by
  obtain ⟨a, rest, hp, rfl, -⟩ := List.map_eq_cons_iff.mp h
  rw [Tokens.front, hp]

theorem next_sound {t : Located Token} (h : next s = .ok t s') :
    s.values = t.value :: s'.values ∧ s.front = t := by
  unfold next at h
  unfold Tokens.values Tokens.front
  split at h
  · cases h
  · next hp =>
    cases h
    rw [hp]
    exact ⟨rfl, rfl⟩

theorem next_complete {t : Token} (h : s.values = t :: more) :
    ∃ a s', next s = .ok a s' ∧ a.value = t ∧ s'.values = more := by
  obtain ⟨a, rest, hp, ha, hrest⟩ := List.map_eq_cons_iff.mp h
  refine ⟨a, ⟨rest, s.stop⟩, ?_, ha, hrest⟩
  rw [next, hp]

theorem kind_eq_mark {t : Token} : (t.kind == .mark m) = true ↔ t = .mark m := by
  rw [beq_iff_eq]
  cases t <;> simp [Token.kind]

theorem comes_ok {b : Bool} : comes m s = .ok b s' ↔
    (s.front.value.kind == .mark m) = b ∧ s = s' := by
  simp only [comes, bind_ok, peek_ok, pure_ok]
  exact ⟨fun ⟨_, _, ⟨ht, hs⟩, hb, hs'⟩ => ⟨ht ▸ hb, hs.trans hs'⟩,
    fun ⟨hb, hs⟩ => ⟨_, _, ⟨rfl, rfl⟩, hb, hs⟩⟩

theorem comes_true (h : s.values = .mark m :: more) : comes m s = .ok true s :=
  comes_ok.mpr ⟨kind_eq_mark.mpr (front_value h), rfl⟩

theorem comes_false {t : Token} (h : s.values = t :: more) (ht : t ≠ .mark m) :
    comes m s = .ok false s :=
  comes_ok.mpr ⟨Bool.eq_false_iff.mpr fun hm => ht (front_value h ▸ kind_eq_mark.mp hm), rfl⟩

theorem mark_sound {t : Located Token} (h : mark m s = .ok t s') :
    s.values = .mark m :: s'.values := by
  simp only [mark, expect, bind_ok, peek_ok] at h
  obtain ⟨_, _, ⟨rfl, rfl⟩, h⟩ := h
  split at h
  · next hkind =>
    obtain ⟨hvalues, hfront⟩ := next_sound h
    rw [kind_eq_mark, hfront] at hkind
    rw [hvalues, hkind]
  · exact absurd h unexpected_not_ok

theorem mark_complete (h : s.values = .mark m :: more) :
    ∃ a s', mark m s = .ok a s' ∧ a.value = .mark m ∧ s'.values = more := by
  obtain ⟨a, s', hnext, ha, hs'⟩ := next_complete h
  refine ⟨a, s', ?_, ha, hs'⟩
  simp only [mark, expect, bind_ok, peek_ok]
  refine ⟨_, _, ⟨rfl, rfl⟩, ?_⟩
  rw [if_pos (kind_eq_mark.mpr (front_value h))]
  exact hnext

theorem name_sound {n : Located Text} (h : name s = .ok n s') :
    s.values = .name n.value :: s'.values := by
  simp only [name, bind_ok] at h
  obtain ⟨t, s₁, hnext, h⟩ := h
  cases ht : t.value with
  | name text =>
    simp only [ht] at h
    obtain ⟨rfl, rfl⟩ := pure_ok.mp h
    rw [(next_sound hnext).1, ht]
  | _ =>
    simp only [ht] at h
    exact absurd h failAt_not_ok

theorem name_complete {text : Text} (h : s.values = .name text :: more) :
    ∃ n s', name s = .ok n s' ∧ n.value = text ∧ s'.values = more := by
  obtain ⟨a, s', hnext, ha, hs'⟩ := next_complete h
  refine ⟨⟨text, a.span⟩, s', ?_, rfl, hs'⟩
  simp only [name, bind_ok]
  refine ⟨a, s', hnext, ?_⟩
  rw [ha]
  exact pure_ok.mpr ⟨rfl, rfl⟩

theorem skip?_sound {o : Option (Located Token)} (h : skip? (.mark m) s = .ok o s') :
    (∃ t, o = some t ∧ t.value = .mark m ∧ s.values = .mark m :: s'.values) ∨
      (o = none ∧ s = s') := by
  rw [skip?] at h
  cases hp : s.pending with
  | nil => simp [hp] at h
  | cons t rest =>
    simp only [hp] at h
    split at h
    · next hkind =>
      cases h
      have ht := kind_eq_mark.mp hkind
      exact .inl ⟨t, rfl, ht, by rw [Tokens.values, hp, List.map_cons, ht]; rfl⟩
    · cases h
      exact .inr ⟨rfl, rfl⟩

theorem skip?_some (h : s.values = .mark m :: more) :
    ∃ t s', skip? (.mark m) s = .ok (some t) s' ∧ t.value = .mark m ∧ s'.values = more := by
  obtain ⟨a, rest, hp, ha, hrest⟩ := List.map_eq_cons_iff.mp h
  refine ⟨a, ⟨rest, s.stop⟩, ?_, ha, hrest⟩
  rw [skip?, hp]
  simp only [kind_eq_mark.mpr ha, if_true]

theorem skip?_none {t : Token} (h : s.values = t :: more) (ht : t ≠ .mark m) :
    skip? (.mark m) s = .ok none s := by
  obtain ⟨a, rest, hp, rfl, -⟩ := List.map_eq_cons_iff.mp h
  rw [skip?, hp]
  simp only [if_neg (mt kind_eq_mark.mp ht)]

/-- What `p` takes is written as `L` says of its answer. -/
def Sound (p : Parser α) (L : α → List Token → Prop) : Prop :=
  ∀ ⦃s a s'⦄, p s = .ok a s' → ∃ ts, s.values = ts ++ s'.values ∧ L a ts

/-- Where tokens stand that are written as `L` says of a value, and such as may follow after them,
`p` takes just those tokens. Its answer is that value in what `e` keeps of it. -/
def Complete (p : Parser α) (e : α → β) (L : α → List Token → Prop) (follow : List Token → Prop) :
    Prop :=
  ∀ ⦃s a ts rest⦄, s.values = ts ++ rest → L a ts → follow rest →
    ∃ a' s', p s = .ok a' s' ∧ e a' = e a ∧ s'.values = rest

/-- Anything may follow. -/
def anything : List Token → Prop := fun _ => True

/-- There is a next token, and it is none of some marks. -/
def Avoids (marks : List Punctuator) (rest : List Token) : Prop :=
  ∃ t more, rest = t :: more ∧ ∀ p ∈ marks, t ≠ .mark p

theorem Avoids.mono {marks marks' : List Punctuator} {rest : List Token} (h : Avoids marks rest)
    (hsub : marks' ⊆ marks) : Avoids marks' rest := by
  obtain ⟨t, more, rfl, ht⟩ := h
  exact ⟨t, more, rfl, fun p hp => ht p (hsub hp)⟩

/-- The next token, if there is one, is not this mark. -/
def Spares (m : Punctuator) (rest : List Token) : Prop := ∀ t ∈ rest.head?, t ≠ .mark m

theorem Avoids.spares {marks : List Punctuator} {rest : List Token} (h : Avoids marks rest)
    (hm : m ∈ marks) : Spares m rest := by
  obtain ⟨t, more, rfl, ht⟩ := h
  rintro _ ⟨⟩
  exact ht m hm

/-- A mark does not come where another token does, nor at the end of the file. -/
theorem comes_spared (h : Spares m s.values) : comes m s = .ok false s := by
  cases hs : s.values with
  | nil =>
    have hfront : s.front.value = .endOfFile := by
      rw [Tokens.front, List.map_eq_nil_iff.mp hs]
    exact comes_ok.mpr ⟨by rw [hfront]; rfl, rfl⟩
  | cons t more => exact comes_false hs (h t (by rw [hs]; rfl))

variable {e : α → β} {L M : α → List Token → Prop} {follow : List Token → Prop}

theorem Sound.mono (h : Sound p L) (hLM : ∀ a ts, L a ts → M a ts) : Sound p M := by
  intro s a s' hp
  obtain ⟨ts, hts, hL⟩ := h hp
  exact ⟨ts, hts, hLM a ts hL⟩

theorem Complete.mono (h : Complete p e L follow) (hML : ∀ a ts, M a ts → L a ts) :
    Complete p e M follow :=
  fun _ _ _ _ hs hM => h hs (hML _ _ hM)

theorem length_values (s : Tokens) : s.values.length = s.pending.length := List.length_map ..

/-- Fuel is only there to be given: it is never less than the tokens to be read. -/
theorem Sound.fueled {p : Nat → Parser α} (h : ∀ fuel, Sound (p fuel) L) : Sound (fueled p) L :=
  fun _ _ _ hp => h _ hp

theorem Complete.fueled {p : Nat → Parser α}
    (h : ∀ fuel, Complete (p fuel) e (fun a ts => L a ts ∧ ts.length < fuel) follow) :
    Complete (fueled p) e L follow := by
  intro s a ts rest hs hL hrest
  refine h _ hs ⟨hL, ?_⟩ hrest
  rw [← length_values, hs, List.length_append]
  omega

/-- To be complete for tokens of any length is to be complete at all. -/
theorem Complete.unbounded
    (h : ∀ n, Complete p e (fun a ts => L a ts ∧ ts.length < n) follow) : Complete p e L follow :=
  fun _ _ _ _ hs hL => h _ hs ⟨hL, Nat.lt_succ_self _⟩

/-- What is written of something that may be left out. -/
def Optionally (L : α → List Token → Prop) (o : Option α) (ts : List Token) : Prop :=
  match o with
  | none => ts = []
  | some a => L a ts

/-- Whatever `L` says begins with a token of a kind. -/
def Starts (L : α → List Token → Prop) (starts : Token → Prop) : Prop :=
  ∀ ⦃a ts⦄, L a ts → ∃ t us, ts = t :: us ∧ starts t

/-- Whatever `L` says begins with one mark. -/
def Opens (L : α → List Token → Prop) (m : Punctuator) : Prop :=
  ∀ ⦃a ts⦄, L a ts → ∃ us, ts = .mark m :: us

/-- Items written one after another. -/
def Items (L : α → List Token → Prop) (items : List α) (ts : List Token) : Prop :=
  ∃ parts, ts = parts.flatten ∧ List.Forall₂ L items parts

theorem items_nil_iff {ts : List Token} : Items L [] ts ↔ ts = [] := by
  refine ⟨?_, fun h => ⟨[], h, .nil⟩⟩
  rintro ⟨parts, rfl, h⟩
  cases h
  rfl

theorem items_cons_iff {a : α} {items : List α} {ts : List Token} :
    Items L (a :: items) ts ↔ ∃ us vs, ts = us ++ vs ∧ L a us ∧ Items L items vs := by
  refine ⟨?_, ?_⟩
  · rintro ⟨_, rfl, h⟩
    cases h with
    | cons ha hitems => exact ⟨_, _, rfl, ha, _, rfl, hitems⟩
  · rintro ⟨us, _, rfl, ha, parts, rfl, hitems⟩
    exact ⟨us :: parts, rfl, .cons ha hitems⟩

theorem Items.mono {items : List α} {ts : List Token} (h : Items L items ts)
    (hLM : ∀ a ∈ items, ∀ us, L a us → us.length ≤ ts.length → M a us) : Items M items ts := by
  induction items generalizing ts with
  | nil => exact items_nil_iff.mpr (items_nil_iff.mp h)
  | cons a items ih =>
    obtain ⟨us, vs, rfl, ha, hitems⟩ := items_cons_iff.mp h
    simp only [List.length_append] at hLM
    refine items_cons_iff.mpr ⟨us, vs, rfl, hLM a List.mem_cons_self us ha (by omega),
      ih hitems fun b hb ws hw hlen => hLM b (List.mem_cons_of_mem _ hb) ws hw (by omega)⟩

/-- Items with a mark after the last. -/
def ItemsUntil (closing : Punctuator) (L : α → List Token → Prop) (items : List α)
    (ts : List Token) : Prop :=
  ∃ inner, ts = inner ++ [.mark closing] ∧ Items L items inner

/-- Items between marks. -/
def Delimited (opening closing : Punctuator) (L : α → List Token → Prop)
    (items : Located (List α)) (ts : List Token) : Prop :=
  ∃ inner, ts = .mark opening :: inner ∧ ItemsUntil closing L items.value inner

/-- Items that are shorter than a bound because all of them together are. -/
theorem Delimited.shorten {opening closing : Punctuator} {items : Located (List α)}
    {ts : List Token} {n : Nat} (h : Delimited opening closing L items ts)
    (hlen : ts.length < n + 1) :
    Delimited opening closing (fun a us => L a us ∧ us.length < n) items ts := by
  obtain ⟨_, rfl, inner, rfl, hitems⟩ := h
  simp only [List.length_cons, List.length_append, List.length_nil] at hlen
  exact ⟨_, rfl, inner, rfl, hitems.mono fun a _ us ha hus => ⟨ha, by omega⟩⟩

variable {item : Parser α} {opening closing : Punctuator} {starts : Token → Prop}

theorem itemsUntil_sound (h : Sound item L) (fuel : Nat) :
    Sound (itemsUntil (.mark closing) item fuel) fun r ts => ItemsUntil closing L r.1 ts := by
  induction fuel with
  | zero => exact fun _ _ _ hp => absurd hp unexpected_not_ok
  | succ fuel ih =>
    intro s r s' hp
    simp only [itemsUntil, bind_ok] at hp
    obtain ⟨o, s₁, hskip, hp⟩ := hp
    rcases skip?_sound hskip with ⟨t, rfl, -, hs⟩ | ⟨rfl, rfl⟩
    · obtain ⟨rfl, rfl⟩ := pure_ok.mp hp
      exact ⟨[.mark closing], hs, [], rfl, items_nil_iff.mpr rfl⟩
    · obtain ⟨a, s₂, hitem, hp⟩ := bind_ok.mp hp
      obtain ⟨⟨rest, close⟩, s₃, hrest, hp⟩ := bind_ok.mp hp
      obtain ⟨rfl, rfl⟩ := pure_ok.mp hp
      obtain ⟨us, hus, ha⟩ := h hitem
      obtain ⟨_, hvs, inner, rfl, hitems⟩ := ih hrest
      refine ⟨us ++ (inner ++ [.mark closing]), ?_, us ++ inner, (List.append_assoc _ _ _).symm,
        items_cons_iff.mpr ⟨us, inner, rfl, ha, hitems⟩⟩
      rw [hus, hvs]
      simp only [List.append_assoc]

/-- Every item takes a token, so that fuel for the tokens is enough for the items. -/
theorem itemsUntil_complete (h : Complete item e L follow) (hstarts : Starts L starts)
    (hclosing : ¬ starts (.mark closing))
    (hfollow : ∀ t more, t = .mark closing ∨ starts t → follow (t :: more)) (fuel : Nat) :
    Complete (itemsUntil (.mark closing) item fuel) (fun r => r.1.map e)
      (fun r ts => ItemsUntil closing L r.1 ts ∧ ts.length ≤ fuel) anything := by
  induction fuel with
  | zero =>
    rintro s r ts rest - ⟨⟨inner, rfl, -⟩, hlen⟩ -
    simp at hlen
  | succ fuel ih =>
    rintro s ⟨items, close⟩ ts rest hs ⟨⟨inner, rfl, hitems⟩, hlen⟩ -
    simp only [itemsUntil, bind_ok]
    cases items with
    | nil =>
      obtain rfl := items_nil_iff.mp hitems
      obtain ⟨t, s', hskip, -, hs'⟩ := skip?_some hs
      exact ⟨([], t), s', ⟨_, _, hskip, pure_ok.mpr ⟨rfl, rfl⟩⟩, rfl, hs'⟩
    | cons a items =>
      obtain ⟨us, vs, rfl, ha, hmore⟩ := items_cons_iff.mp hitems
      obtain ⟨t, us, rfl, ht⟩ := hstarts ha
      have hnext : follow (vs ++ ([.mark closing] ++ rest)) := by
        cases items with
        | nil =>
          obtain rfl := items_nil_iff.mp hmore
          exact hfollow _ _ (.inl rfl)
        | cons b items =>
          obtain ⟨ws, xs, rfl, hb, -⟩ := items_cons_iff.mp hmore
          obtain ⟨u, ws, rfl, hu⟩ := hstarts hb
          exact hfollow _ _ (.inr hu)
      have hskip := skip?_none (m := closing) hs (fun hm => hclosing (hm ▸ ht))
      have hsplit : s.values = (t :: us) ++ (vs ++ ([.mark closing] ++ rest)) := by
        rw [hs]
        simp only [List.append_assoc, List.cons_append]
      obtain ⟨a', s₁, hitem, ha', hs₁⟩ := h hsplit ha hnext
      rw [← List.append_assoc] at hs₁
      obtain ⟨⟨items', close'⟩, s₂, hrest, hitems', hs₂⟩ := ih (a := (items, close)) hs₁
        ⟨⟨vs, rfl, hmore⟩, by simp at hlen ⊢; omega⟩ trivial
      refine ⟨(a' :: items', close'), s₂, ⟨_, _, hskip, ?_⟩, ?_, hs₂⟩
      · exact bind_ok.mpr ⟨a', s₁, hitem, bind_ok.mpr ⟨_, s₂, hrest, pure_ok.mpr ⟨rfl, rfl⟩⟩⟩
      · rw [List.map_cons, List.map_cons, ha']
        exact congrArg _ hitems'

theorem delimited_sound (h : Sound item L) (fuel : Nat) :
    Sound (delimited (.mark opening) (.mark closing) item fuel) (Delimited opening closing L) := by
  intro s r s' hp
  simp only [delimited, bind_ok] at hp
  obtain ⟨first, s₁, hfirst, ⟨items, last⟩, s₂, hitems, hp⟩ := hp
  obtain ⟨rfl, rfl⟩ := pure_ok.mp hp
  obtain ⟨inner, hinner, huntil⟩ := itemsUntil_sound h fuel hitems
  exact ⟨.mark opening :: inner, by rw [mark_sound hfirst, hinner]; rfl, inner, rfl, huntil⟩

theorem delimited_complete (h : Complete item e L follow) (hstarts : Starts L starts)
    (hclosing : ¬ starts (.mark closing))
    (hfollow : ∀ t more, t = .mark closing ∨ starts t → follow (t :: more)) (fuel : Nat) :
    Complete (delimited (.mark opening) (.mark closing) item fuel) (fun r => r.value.map e)
      (fun r ts => Delimited opening closing L r ts ∧ ts.length < fuel) anything := by
  rintro s r ts rest hs ⟨⟨inner, rfl, huntil⟩, hlen⟩ -
  obtain ⟨first, s₁, hfirst, -, hs₁⟩ := mark_complete hs
  obtain ⟨⟨items, last⟩, s₂, hitems, hvalues, hs₂⟩ :=
    itemsUntil_complete h hstarts hclosing hfollow fuel (a := (r.value, first)) hs₁
      ⟨huntil, by simp at hlen; omega⟩ trivial
  refine ⟨⟨items, ⟨first.span.start, last.span.stop⟩⟩, s₂, ?_, hvalues, hs₂⟩
  exact bind_ok.mpr ⟨first, s₁, hfirst, bind_ok.mpr ⟨_, s₂, hitems, pure_ok.mpr ⟨rfl, rfl⟩⟩⟩

/-- Where there has to be an item, the first is read before the closing mark is looked for. -/
theorem delimitedSome_sound (h : Sound item L) (fuel : Nat) :
    Sound (delimitedSome (.mark opening) (.mark closing) item fuel)
      fun r ts => r.value ≠ [] ∧ Delimited opening closing L r ts := by
  intro s r s' hp
  simp only [delimitedSome, someUntil, bind_ok, Prod.exists, pure_ok, Prod.mk.injEq] at hp
  obtain ⟨first, s₁, hfirst, items, last, s₂, ⟨a, s₃, ha, as, _, s₄, has, ⟨rfl, rfl⟩, rfl⟩, rfl,
    rfl⟩ := hp
  obtain ⟨us, hus, hL⟩ := h ha
  obtain ⟨_, hvs, inner, rfl, hitems⟩ := itemsUntil_sound h fuel has
  refine ⟨.mark opening :: (us ++ (inner ++ [.mark closing])), ?_, List.cons_ne_nil _ _, _, rfl,
    us ++ inner, (List.append_assoc _ _ _).symm, items_cons_iff.mpr ⟨us, inner, rfl, hL, hitems⟩⟩
  rw [mark_sound hfirst, hus, hvs]
  simp only [List.append_assoc, List.cons_append]

theorem delimitedSome_complete (h : Complete item e L follow) (hstarts : Starts L starts)
    (hclosing : ¬ starts (.mark closing))
    (hfollow : ∀ t more, t = .mark closing ∨ starts t → follow (t :: more)) (fuel : Nat) :
    Complete (delimitedSome (.mark opening) (.mark closing) item fuel) (fun r => r.value.map e)
      (fun r ts => (r.value ≠ [] ∧ Delimited opening closing L r ts) ∧ ts.length < fuel)
      anything := by
  rintro s ⟨items, span⟩ ts rest hs ⟨⟨hne, hdelimited⟩, hlen⟩ -
  -- With an item at the front, reading one first is what reading up to the mark does.
  obtain ⟨r', s', hp, hvalues, hs'⟩ :=
    delimited_complete h hstarts hclosing hfollow (fuel + 1) hs ⟨hdelimited, by omega⟩ trivial
  refine ⟨r', s', ?_, hvalues, hs'⟩
  obtain ⟨inner, rfl, inner, rfl, hitems⟩ := hdelimited
  cases items with
  | nil => exact absurd rfl hne
  | cons a items =>
    obtain ⟨us, vs, rfl, ha, -⟩ := items_cons_iff.mp hitems
    obtain ⟨t, us, rfl, ht⟩ := hstarts ha
    simp only [delimited, itemsUntil, bind_ok] at hp
    obtain ⟨first, s₁, hfirst, r, s₂, ⟨o, s₃, hskip, hitem⟩, hp⟩ := hp
    have hs₁ : s₁.values = t :: (us ++ (vs ++ ([.mark closing] ++ rest))) := by
      have hfirst := mark_sound hfirst
      rw [hs, List.cons_append, List.cons.injEq] at hfirst
      rw [← hfirst.2]
      simp only [List.append_assoc, List.cons_append]
    rw [skip?_none hs₁ (fun hm => hclosing (hm ▸ ht))] at hskip
    cases hskip
    refine bind_ok.mpr ⟨first, s₁, hfirst, bind_ok.mpr ⟨r, s₂, ?_, hp⟩⟩
    exact hitem

end Parser

end GraphQL
