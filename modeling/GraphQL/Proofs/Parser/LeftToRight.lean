import GraphQL.Proofs.Parser.Steps

/-! Parsers read from left to right: what one answers depends on the tokens it takes and the one
after them, and where it refuses a token, on the tokens up to that one. Fuel is counted from all the
tokens there are, so the statement is about two parsers, each with fuel enough for its tokens. -/

namespace GraphQL

/-- A string that has a value, or no string at all. -/
def Token.Denotes (t : Token) : Prop := ∀ l, t = .scalar l → ∃ text, l.cooked = .ok text

namespace Parser

variable {α β : Type} {least n m : Nat} {s : Tokens} {p q : Parser α}

/-- What an answer of a parser says about `q` on other tokens, fewer than `m` of them. An answer was
given by the tokens taken, at least `least`, and by the one after them; a refusal by the tokens up to
the one refused. That the tokens have come to an end says nothing about others, nor does that there
is no answer. -/
inductive Tracked (least m : Nat) (q : Parser α) (s : Tokens) :
    EStateM.Result Failure Tokens α → Prop
  | ok {a : α} {left : List (Located Token)} (taken : List (Located Token)) :
      s.pending = taken ++ left → least ≤ taken.length →
      (∀ x rest, left = x :: rest → ∀ more stop, (taken ++ x :: more).length < m →
        q ⟨taken ++ x :: more, stop⟩ = .ok a ⟨x :: more, stop⟩) →
      Tracked least m q s (.ok a ⟨left, s.stop⟩)
  | ended {s' : Tokens} :
      Tracked least m q s (.error (.refused ⟨.unexpectedEndOfFile, .empty s.stop⟩) s')
  | refused {after : List (Located Token)} {t : Located Token} (before : List (Located Token)) :
      s.pending = before ++ t :: after →
      (∀ more stop, (before ++ t :: more).length < m →
        q ⟨before ++ t :: more, stop⟩ =
          .error (.refused ⟨.ofToken t.value, t.span⟩) ⟨more, stop⟩) →
      Tracked least m q s (.error (.refused ⟨.ofToken t.value, t.span⟩) ⟨after, s.stop⟩)
  | endless {s' : Tokens} : Tracked least m q s (.error .endless s')

/-- `q` does on fewer than `m` tokens what `p` does on fewer than `n`, as far as the tokens that
`p` went by are the same. -/
def Tracks (least n m : Nat) (p q : Parser α) : Prop :=
  ∀ s : Tokens, s.pending.length < n → (∀ t ∈ s.pending, t.value.Denotes) →
    Tracked least m q s (p s)

theorem bind_of_ok {f : α → Parser β} {a : α} {s' : Tokens} (h : p s = .ok a s') :
    (p >>= f) s = f a s' := by
  change EStateM.bind p f s = _
  rw [EStateM.bind, h]

theorem bind_of_error {f : α → Parser β} {e : Failure} {s' : Tokens}
    (h : p s = .error e s') : (p >>= f) s = .error e s' := by
  change EStateM.bind p f s = _
  rw [EStateM.bind, h]

namespace Tracked

variable {r : EStateM.Result Failure Tokens α}

theorem mono {least' m' : Nat} (h : Tracked least m q s r) (hleast : least' ≤ least) (hm : m' ≤ m) :
    Tracked least' m' q s r := by
  cases h with
  | ok taken hsplit htaken hq =>
    exact .ok taken hsplit (Nat.le_trans hleast htaken) fun x rest hleft more stop hlen =>
      hq x rest hleft more stop (Nat.lt_of_lt_of_le hlen hm)
  | ended => exact .ended
  | endless => exact .endless
  | refused before hsplit hq =>
    exact .refused before hsplit fun more stop hlen => hq more stop (Nat.lt_of_lt_of_le hlen hm)

/-- About no tokens at all, any parser will do. -/
theorem zero {q' : Parser α} (h : Tracked least m q s r) : Tracked least 0 q' s r := by
  cases h with
  | ok taken hsplit htaken =>
    exact .ok taken hsplit htaken fun _ _ _ _ _ hlen => absurd hlen (Nat.not_lt_zero _)
  | ended => exact .ended
  | endless => exact .endless
  | refused before hsplit =>
    exact .refused before hsplit fun _ _ hlen => absurd hlen (Nat.not_lt_zero _)

/-- Which token was refused can be told from those that are left. -/
theorem of_refused {before after : List (Located Token)} {t : Located Token}
    (h : Tracked least m q s (.error (.refused ⟨.ofToken t.value, t.span⟩) ⟨after, s.stop⟩))
    (hsplit : s.pending = before ++ t :: after) (more : List (Located Token)) (stop : Position)
    (hlen : (before ++ t :: more).length < m) :
    q ⟨before ++ t :: more, stop⟩ = .error (.refused ⟨.ofToken t.value, t.span⟩) ⟨more, stop⟩ := by
  generalize hr : EStateM.Result.error (Failure.refused ⟨ParseError.ofToken t.value, t.span⟩)
    (Tokens.mk after s.stop) = r at h
  cases h with
  | ok => cases hr
  | ended =>
    rw [EStateM.Result.error.injEq, Failure.refused.injEq, Located.mk.injEq] at hr
    cases hr.1.1
  | endless => cases hr
  | @refused after' t' before' hsplit' hq =>
    rw [EStateM.Result.error.injEq, Tokens.mk.injEq] at hr
    obtain ⟨-, rfl, -⟩ := hr
    obtain ⟨rfl, hcons⟩ := List.append_inj' (hsplit.symm.trans hsplit') rfl
    obtain rfl := (List.cons.inj hcons).1
    exact hq more stop hlen

/-- Parsers that begin alike on the tokens at hand may stand for one another. -/
theorem congr {q' : Parser α} (h : Tracked least m q s r)
    (hq' : ∀ xs x rest more stop, s.pending = xs ++ x :: rest →
      q' ⟨xs ++ x :: more, stop⟩ = q ⟨xs ++ x :: more, stop⟩) : Tracked least m q' s r := by
  cases h with
  | ok taken hsplit htaken hq =>
    refine .ok taken hsplit htaken ?_
    rintro x rest rfl more stop hlen
    exact (hq' taken x rest more stop hsplit).trans (hq x rest rfl more stop hlen)
  | ended => exact .ended
  | endless => exact .endless
  | @refused after t before hsplit hq =>
    refine .refused before hsplit fun more stop hlen => ?_
    rw [hq' before t after more stop hsplit]
    exact hq more stop hlen

/-- After a token has been taken. -/
theorem cons {t : Located Token} {rest : List (Located Token)} {stop : Position} {q' : Parser α}
    (h : Tracked least (m - 1) q ⟨rest, stop⟩ r)
    (hq' : ∀ more stop, q' ⟨t :: more, stop⟩ = q ⟨more, stop⟩) :
    Tracked (least + 1) m q' ⟨t :: rest, stop⟩ r := by
  cases h with
  | ok taken hsplit htaken hq =>
    refine .ok (t :: taken) (congrArg (t :: ·) hsplit) (Nat.succ_le_succ htaken) ?_
    rintro x rest rfl more stop' hlen
    rw [List.cons_append, hq']
    exact hq x rest rfl more stop' (Nat.lt_sub_of_add_lt hlen)
  | ended => exact .ended
  | endless => exact .endless
  | refused before hsplit hq =>
    refine .refused (t :: before) (congrArg (t :: ·) hsplit) fun more stop' hlen => ?_
    rw [List.cons_append, hq']
    exact hq more stop' (Nat.lt_sub_of_add_lt hlen)

end Tracked

/-- A token is taken, and then it is refused or it decides the answer. -/
theorem tracked_next {f : Located Token → Parser β} (s : Tokens)
    (h : ∀ t ∈ s.pending.head?, (∃ b, f t = pure b) ∨ f t = failAt (.ofToken t.value) t.span) :
    Tracked 1 m (next >>= f) s ((next >>= f) s) := by
  obtain ⟨pending, stop⟩ := s
  cases pending with
  | nil => exact .ended
  | cons t rest =>
    change Tracked 1 m _ _ (f t ⟨rest, stop⟩)
    have hq (more : List (Located Token)) (stop : Position) :
        (next >>= f) ⟨t :: more, stop⟩ = f t ⟨more, stop⟩ := rfl
    rcases h t rfl with ⟨b, hb⟩ | hf
    · rw [hb] at hq ⊢
      exact .ok [t] rfl (Nat.le_refl 1) fun x _ _ more stop _ => hq (x :: more) stop
    · rw [hf] at hq ⊢
      exact .refused [] rfl fun more stop _ => hq more stop

namespace Tracks

variable {f g : α → Parser β}

theorem weaken (h : Tracks least n m p q) : Tracks 0 n m p q :=
  fun s hlen hread => (h s hlen hread).mono (Nat.zero_le least) Nat.le.refl

theorem mono {least' n' m' : Nat} (h : Tracks least n m p q) (hleast : least' ≤ least)
    (hn : n' ≤ n) (hm : m' ≤ m) : Tracks least' n' m' p q :=
  fun s hlen hread => (h s (Nat.lt_of_lt_of_le hlen hn) hread).mono hleast hm

/-- There is always a next token after some, the same whatever comes after a further one. -/
theorem exists_cons_append {γ : Type} (xs : List γ) (x : γ) :
    ∃ y, ∀ more, ∃ tail, xs ++ x :: more = y :: tail := by
  cases xs with
  | nil => exact ⟨x, fun more => ⟨more, rfl⟩⟩
  | cons y ys => exact ⟨y, fun more => ⟨ys ++ x :: more, rfl⟩⟩

/-- What follows has the tokens that are left. -/
theorem bind {k : Nat} (h : Tracks least n m p q)
    (hnext : ∀ a, Tracks k (n - least) (m - least) (f a) (g a)) :
    Tracks (least + k) n m (p >>= f) (q >>= g) := by
  intro s hlen hread
  have hp := h s hlen hread
  cases hrun : p s with
  | error e s' =>
    rw [bind_of_error hrun]
    rw [hrun] at hp
    cases hp with
    | ended => exact .ended
    | endless => exact .endless
    | refused before hsplit hq =>
      exact .refused before hsplit fun more stop hmore => bind_of_error (hq more stop hmore)
  | ok a s' =>
    rw [bind_of_ok hrun]
    rw [hrun] at hp
    cases hp with
    | @ok _ left taken hsplit htaken hq =>
      rw [hsplit, List.length_append] at hlen
      rw [hsplit, List.forall_mem_append] at hread
      have hf := hnext a ⟨left, s.stop⟩ (show left.length < n - least by omega) hread.2
      -- the first parser went by the token after those it took, which the second goes on with
      have hmiddle {xs : List (Located Token)} {x : Located Token} {rest : List (Located Token)}
          (hleft : left = xs ++ x :: rest) (more : List (Located Token)) (stop : Position)
          (hmore : (taken ++ (xs ++ x :: more)).length < m) :
          q ⟨taken ++ (xs ++ x :: more), stop⟩ = .ok a ⟨xs ++ x :: more, stop⟩ := by
        obtain ⟨y, hy⟩ := exists_cons_append xs x
        obtain ⟨tail, htail⟩ := hy rest
        obtain ⟨tail', htail'⟩ := hy more
        rw [htail'] at hmore ⊢
        exact hq y tail (hleft.trans htail) tail' stop hmore
      generalize f a ⟨left, s.stop⟩ = r at hf
      cases hf with
      | ended => exact .ended
      | endless => exact .endless
      | ok taken' hsplit' htaken' hg =>
        refine .ok (taken ++ taken') ?_ ?_ ?_
        · rw [hsplit, List.append_assoc]
          exact congrArg (taken ++ ·) hsplit'
        · rw [List.length_append]
          exact Nat.add_le_add htaken htaken'
        · rintro x rest rfl more stop hmore
          rw [List.append_assoc] at hmore ⊢
          rw [bind_of_ok (hmiddle hsplit' more stop hmore)]
          rw [List.length_append] at hmore
          exact hg x rest rfl more stop (by omega)
      | refused before hsplit' hg =>
        refine .refused (taken ++ before) ?_ fun more stop hmore => ?_
        · rw [hsplit, List.append_assoc]
          exact congrArg (taken ++ ·) hsplit'
        · rw [List.append_assoc] at hmore ⊢
          rw [bind_of_ok (hmiddle hsplit' more stop hmore)]
          rw [List.length_append] at hmore
          exact hg more stop (by omega)

/-- What follows may take any number of tokens. -/
theorem andThen {k : Nat} (h : Tracks least n m p q)
    (hnext : ∀ a, Tracks k n m (f a) (g a)) : Tracks least n m (p >>= f) (q >>= g) :=
  (h.bind fun a => (hnext a).mono Nat.le.refl (Nat.sub_le n least) (Nat.sub_le m least)).mono
    (Nat.le_add_right _ _) Nat.le.refl Nat.le.refl

theorem pure (a : α) : Tracks 0 n m (Pure.pure a : Parser α) (Pure.pure a) :=
  fun _ _ _ => .ok [] rfl (Nat.zero_le _) fun _ _ _ _ _ _ => rfl

theorem map (h : Tracks least n m p q) (f : α → β) : Tracks least n m (f <$> p) (f <$> q) := by
  rw [map_eq_pure_bind, map_eq_pure_bind]
  exact h.andThen fun a => pure (f a)

theorem unexpected : Tracks least n m (unexpected : Parser α) Parser.unexpected := by
  rintro ⟨pending, stop⟩ _ _
  cases pending with
  | nil => exact .ended
  | cons t rest => exact .refused [] rfl fun _ _ _ => rfl

theorem next : Tracks 1 n m next Parser.next := by
  rintro ⟨pending, stop⟩ _ _
  cases pending with
  | nil => exact .ended
  | cons t rest =>
    exact .ok [t] rfl (Nat.le_refl 1) fun _ _ _ _ _ _ => rfl

/-- The next token is the same whatever comes after a further one. -/
theorem front_append (xs : List (Located Token)) (x : Located Token)
    (more more' : List (Located Token)) (stop stop' : Position) :
    (⟨xs ++ x :: more, stop⟩ : Tokens).front = (⟨xs ++ x :: more', stop'⟩ : Tokens).front := by
  cases xs <;> rfl

/-- What follows on a look at the next token may depend on it. -/
theorem peek {f g : Located Token → Parser β}
    (h : ∀ s : Tokens, s.pending.length < n → (∀ t ∈ s.pending, t.value.Denotes) →
      Tracked least m (g s.front) s (f s.front s)) :
    Tracks least n m (Parser.peek >>= f) (Parser.peek >>= g) := by
  intro s hlen hread
  refine (h s hlen hread).congr fun xs x rest more stop hs => ?_
  have hsame : (⟨xs ++ x :: more, stop⟩ : Tokens).front = s.front := by
    rw [front_append xs x more rest stop s.stop, ← hs]
  rw [← hsame]
  rfl

theorem peek_bind {f g : Located Token → Parser β} (h : ∀ t, Tracks least n m (f t) (g t)) :
    Tracks least n m (Parser.peek >>= f) (Parser.peek >>= g) :=
  peek fun s hlen hread => h s.front s hlen hread

theorem comes (mark : Punctuator) : Tracks 0 n m (comes mark) (Parser.comes mark) :=
  peek_bind fun t => pure (t.value.kind == .mark mark)

theorem expect (kind : Token.Kind) : Tracks 1 n m (expect kind) (Parser.expect kind) := by
  refine peek_bind fun t => ?_
  split
  · exact next
  · exact unexpected

theorem mark (p : Punctuator) : Tracks 1 n m (mark p) (Parser.mark p) := expect _

theorem name : Tracks 1 n m name Parser.name := by
  refine fun s _ _ => tracked_next s fun t _ => ?_
  cases t.value with
  | name text => exact .inl ⟨_, rfl⟩
  | _ => exact .inr rfl

/-- A name is taken, and then it is refused or what follows goes on with it. -/
theorem name_bind {k : Nat} {refused : Located Text → Bool} {f g : Located Text → Parser β}
    (hnext : ∀ a, Tracks k n m (f a) (g a)) :
    Tracks 1 n m
      (Parser.name >>= fun a => if refused a then
        (failAt (.ofToken (.name a.value)) a.span : Parser Unit) >>= fun _ => f a else f a)
      (Parser.name >>= fun a => if refused a then
        (failAt (.ofToken (.name a.value)) a.span : Parser Unit) >>= fun _ => g a else g a) := by
  let fitting : Located Text → Parser (Located Text) := fun a =>
    if refused a then failAt (.ofToken (.name a.value)) a.span else Pure.pure a
  have hname : Tracks 1 n m (Parser.name >>= fitting) (Parser.name >>= fitting) := by
    intro s _ _
    rw [Parser.name, bind_assoc]
    refine tracked_next s fun t _ => ?_
    cases hvalue : t.value with
    | name text =>
      rw [pure_bind]
      cases hrefused : refused ⟨text, t.span⟩ with
      | true => exact .inr (if_pos hrefused)
      | false => exact .inl ⟨_, if_neg (Bool.not_eq_true _ ▸ hrefused)⟩
    | _ => exact .inr rfl
  have hsplit (f : Located Text → Parser β) (a : Located Text) : fitting a >>= f =
      if refused a then
        (failAt (.ofToken (.name a.value)) a.span : Parser Unit) >>= fun _ => f a else f a := by
    cases hrefused : refused a with
    | true => simp only [fitting, hrefused, if_true]; rfl
    | false => simp only [fitting, hrefused, Bool.false_eq_true, if_false, pure_bind]
  simp only [← hsplit, ← bind_assoc]
  exact hname.andThen hnext

/-- A token that may be left out takes one token or none. -/
theorem skip?_bind {kind : Token.Kind} {f g : Option (Located Token) → Parser β}
    (hsome : ∀ t, Tracks least (n - 1) (m - 1) (f (some t)) (g (some t)))
    (hnone : Tracks least n m (f none) (g none)) :
    Tracks least n m (skip? kind >>= f) (skip? kind >>= g) := by
  rintro ⟨pending, stop⟩ hlen hread
  cases pending with
  | nil => exact .ended
  | cons t rest =>
    have hskip (more : List (Located Token)) (stop : Position) :
        Parser.skip? kind ⟨t :: more, stop⟩ =
          if t.value.kind == kind then .ok (some t) ⟨more, stop⟩
          else .ok none ⟨t :: more, stop⟩ := rfl
    cases hkind : t.value.kind == kind with
    | true =>
      simp only [hkind, if_true] at hskip
      rw [bind_of_ok (hskip rest stop)]
      have hf := hsome t ⟨rest, stop⟩ (Nat.lt_sub_of_add_lt hlen) (List.forall_mem_cons.mp hread).2
      exact (hf.cons fun more stop => bind_of_ok (hskip more stop)).mono (Nat.le_succ _) Nat.le.refl
    | false =>
      simp only [hkind, Bool.false_eq_true, if_false] at hskip
      rw [bind_of_ok (hskip rest stop)]
      refine (hnone ⟨t :: rest, stop⟩ hlen hread).congr fun xs x rest' more stop' hs => ?_
      obtain ⟨tail, htail⟩ : ∃ tail, xs ++ x :: more = t :: tail := by
        cases xs with
        | nil => exact ⟨more, congrArg (· :: more) (List.cons.inj hs).1.symm⟩
        | cons y ys => exact ⟨ys ++ x :: more, congrArg (· :: _) (List.cons.inj hs).1.symm⟩
      rw [htail]
      exact bind_of_ok (hskip tail stop')

/-- Two families of parsers track one another as far as their fuel reaches, if that goes on from any
amounts of fuel to the next. -/
theorem upTo {ι : Type} {P Q : Nat → ι → Parser α}
    (step : ∀ k l, (∀ i, Tracks least (min n k) (min m l) (P k i) (Q l i)) →
      ∀ i, Tracks least (min n (k + 1)) (min m (l + 1)) (P (k + 1) i) (Q (l + 1) i)) (k l : Nat) :
    ∀ i, Tracks least (min n k) (min m l) (P k i) (Q l i) := by
  induction k generalizing l with
  | zero => exact fun i s hlen _ => absurd hlen (by omega)
  | succ k ih =>
    cases l with
    | zero =>
      intro i s hlen hread
      rw [Nat.min_zero]
      exact (step k k (ih k) i s hlen hread).zero
    | succ l => exact step k l (ih l)

/-- Each parser is given fuel for the tokens it has. -/
theorem fueled {P Q : Nat → Parser α}
    (h : ∀ k l, Tracks least (min n k) (min m l) (P k) (Q l)) :
    Tracks least n m (fueled P) (Parser.fueled Q) := by
  intro s hlen hread
  have hrun (l : Nat) : Tracked least (min m l) (Q l) s (Parser.fueled P s) :=
    h (s.pending.length + 1) l s (Nat.lt_min.mpr ⟨hlen, Nat.lt_succ_self _⟩) hread
  generalize Parser.fueled P s = r at hrun
  cases hrun 0 with
  | ended => exact .ended
  | endless => exact .endless
  | ok taken hsplit htaken =>
    refine .ok taken hsplit htaken fun x rest hleft more stop hmore => ?_
    cases hrun ((taken ++ x :: more).length + 1) with
    | ok taken' hsplit' _ hq =>
      obtain rfl : taken' = taken := List.append_cancel_right (hsplit'.symm.trans hsplit)
      exact hq x rest hleft more stop (Nat.lt_min.mpr ⟨hmore, Nat.lt_succ_self _⟩)
  | @refused after t before hsplit =>
    refine .refused before hsplit fun more stop hmore => ?_
    exact (hrun ((before ++ t :: more).length + 1)).of_refused hsplit more stop
      (Nat.lt_min.mpr ⟨hmore, Nat.lt_succ_self _⟩)

/-- Items up to a closing token, each of which takes a token. -/
theorem itemsUntil {closing : Token.Kind} (h : Tracks 1 n m p q) (k l : Nat) :
    Tracks 0 (min n k) (min m l) (itemsUntil closing p k) (Parser.itemsUntil closing q l) := by
  refine upTo (ι := Unit) (P := fun k _ => Parser.itemsUntil closing p k)
    (Q := fun l _ => Parser.itemsUntil closing q l) (fun k l ih _ => ?_) k l ()
  refine skip?_bind (fun _ => pure _) ?_
  have hitem := h.mono (Nat.le_refl 1) (Nat.min_le_left n (k + 1)) (Nat.min_le_left m (l + 1))
  have hrest : Tracks 0 (min n (k + 1) - 1) (min m (l + 1) - 1) (Parser.itemsUntil closing p k)
      (Parser.itemsUntil closing q l) := (ih ()).mono Nat.le.refl (by omega) (by omega)
  exact (hitem.bind fun _ => hrest.andThen fun _ => pure _).weaken

theorem someUntil {closing : Token.Kind} (h : Tracks 1 n m p q) (k l : Nat) :
    Tracks 1 (min n k) (min m l) (someUntil closing p k) (Parser.someUntil closing q l) := by
  have hitem := h.mono (Nat.le_refl 1) (Nat.min_le_left n k) (Nat.min_le_left m l)
  have hrest : Tracks 0 (min n k - 1) (min m l - 1) (Parser.itemsUntil closing p k)
      (Parser.itemsUntil closing q l) :=
    (h.itemsUntil k l).mono Nat.le.refl (Nat.sub_le _ _) (Nat.sub_le _ _)
  exact hitem.bind fun _ => hrest.andThen fun _ => pure _

/-- Between delimiters, what stands inside has one token less. -/
theorem delimited {opening closing : Token.Kind} (h : Tracks 1 (n - 1) (m - 1) p q) (k l : Nat) :
    Tracks 1 (min n k) (min m l) (delimited opening closing p k)
      (Parser.delimited opening closing q l) := by
  have hinside : Tracks 0 (min n k - 1) (min m l - 1) (Parser.itemsUntil closing p k)
      (Parser.itemsUntil closing q l) :=
    (h.itemsUntil k l).mono Nat.le.refl (by omega) (by omega)
  exact (expect opening).bind fun _ => hinside.andThen fun _ => pure _

theorem delimitedSome {opening closing : Token.Kind} (h : Tracks 1 (n - 1) (m - 1) p q)
    (k l : Nat) : Tracks 1 (min n k) (min m l) (delimitedSome opening closing p k)
      (Parser.delimitedSome opening closing q l) := by
  have hinside : Tracks 0 (min n k - 1) (min m l - 1) (Parser.someUntil closing p k)
      (Parser.someUntil closing q l) :=
    (h.someUntil k l).mono (Nat.zero_le _) (by omega) (by omega)
  exact (expect opening).bind fun _ => hinside.andThen fun _ => pure _

end Tracks

end Parser

end GraphQL
