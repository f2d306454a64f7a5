import GraphQL.Proofs.Parser.Steps

/-! Two parsers on the same tokens. They agree up to a view of their answers if they take the same
tokens and give the same view wherever both succeed. -/

namespace GraphQL.Parser

variable {α β γ δ : Type}

/-- Where two parsers succeed, they leave the same tokens, and `e` sees no difference between their
answers. -/
def Agree (e : α → β) (p q : Parser α) : Prop :=
  ∀ ⦃s a s₁ b s₂⦄, p s = .ok a s₁ → q s = .ok b s₂ → e a = e b ∧ s₁ = s₂

namespace Agree

variable {e : α → β} {d : γ → δ} {p q : Parser α} {f g : α → Parser γ}

theorem refl (e : α → β) (p : Parser α) : Agree e p p := by
  intro s a s₁ b s₂ ha hb
  rw [ha] at hb
  cases hb
  exact ⟨rfl, rfl⟩

theorem pure {a b : α} (h : e a = e b) :
    Agree e (Pure.pure a : Parser α) (Pure.pure b) := by
  intro s a' s₁ b' s₂ ha hb
  obtain ⟨rfl, rfl⟩ := pure_ok.mp ha
  obtain ⟨rfl, rfl⟩ := pure_ok.mp hb
  exact ⟨h, rfl⟩

theorem unexpected_left : Agree e unexpected q :=
  fun _ _ _ _ _ ha _ => absurd ha unexpected_not_ok

theorem unexpected_right : Agree e p unexpected :=
  fun _ _ _ _ _ _ hb => absurd hb unexpected_not_ok

theorem failAt_left {error : ParseError} {span : Span} : Agree e (failAt error span) q :=
  fun _ _ _ _ _ ha _ => absurd ha failAt_not_ok

theorem failAt_right {error : ParseError} {span : Span} : Agree e p (failAt error span) :=
  fun _ _ _ _ _ _ hb => absurd hb failAt_not_ok

theorem failAt_bind {error : ParseError} {span : Span} {q : Parser γ} :
    Agree d (failAt error span >>= f) q :=
  fun _ _ _ _ _ ha _ => nomatch ha

/-- What follows may depend on the answers as far as the view shows them. -/
theorem bind (h : Agree e p q) (hnext : ∀ a b, e a = e b → Agree d (f a) (g b)) :
    Agree d (p >>= f) (q >>= g) := by
  intro s c s₁ c' s₂ hc hc'
  obtain ⟨a, t, ha, hfa⟩ := bind_ok.mp hc
  obtain ⟨b, t', hb, hgb⟩ := bind_ok.mp hc'
  obtain ⟨hab, rfl⟩ := h ha hb
  exact hnext a b hab hfa hgb

theorem bind_same (p : Parser α) (hnext : ∀ a, Agree d (f a) (g a)) :
    Agree d (p >>= f) (p >>= g) := by
  refine bind (refl id p) fun a b hab => ?_
  obtain rfl : a = b := hab
  exact hnext a

/-- What follows may depend on the span of the answers, which the view shows. -/
theorem bind_located {p q : Parser (Located α)} {f g : Located α → Parser γ}
    (h : Agree (Located.map e) p q)
    (hnext : ∀ a b span, e a = e b → Agree d (f ⟨a, span⟩) (g ⟨b, span⟩)) :
    Agree d (p >>= f) (q >>= g) := by
  refine h.bind ?_
  rintro ⟨a, span⟩ ⟨b, span'⟩ hab
  obtain ⟨hvalue, rfl⟩ := Located.mk.inj hab
  exact hnext a b span hvalue

theorem map {f g : α → γ} (h : Agree e p q) (hview : ∀ a b, e a = e b → d (f a) = d (g b)) :
    Agree d (f <$> p) (g <$> q) := by
  intro s c s₁ c' s₂ hc hc'
  obtain ⟨a, ha, rfl⟩ := map_ok.mp hc
  obtain ⟨b, hb, rfl⟩ := map_ok.mp hc'
  obtain ⟨hab, hs⟩ := h ha hb
  exact ⟨hview a b hab, hs⟩

/-- Both are given the same fuel, as they start at the same tokens. -/
theorem fueled {p q : Nat → Parser α} (h : ∀ fuel, Agree e (p fuel) (q fuel)) :
    Agree e (fueled p) (fueled q) :=
  fun _ _ _ _ _ ha hb => h _ ha hb

theorem itemsUntil {closing : Token.Kind} (h : Agree e p q) (fuel : Nat) :
    Agree (Prod.map (List.map e) id) (itemsUntil closing p fuel) (itemsUntil closing q fuel) := by
  induction fuel with
  | zero => exact unexpected_left
  | succ fuel ih =>
    refine bind_same (skip? closing) fun close => ?_
    cases close with
    | some close => exact refl _ _
    | none =>
      refine h.bind fun a b hab => ih.bind fun r r' hr => pure ?_
      obtain ⟨hitems, hclose⟩ := Prod.mk.inj hr
      exact Prod.ext (congrArg₂ List.cons hab hitems) hclose

theorem someUntil {closing : Token.Kind} (h : Agree e p q) (fuel : Nat) :
    Agree (Prod.map (List.map e) id) (someUntil closing p fuel) (someUntil closing q fuel) := by
  refine h.bind fun a b hab => (h.itemsUntil fuel).bind fun r r' hr => pure ?_
  obtain ⟨hitems, hclose⟩ := Prod.mk.inj hr
  exact Prod.ext (congrArg₂ List.cons hab hitems) hclose

/-- Items between two delimiters, when the items and the last delimiter have been read. -/
theorem enclose {p q : Parser (List α × Located Token)}
    (h : Agree (Prod.map (List.map e) id) p q) (start : Position) :
    Agree (Located.map (List.map e))
      (do let (items, last) ← p; return ⟨items, ⟨start, last.span.stop⟩⟩)
      (do let (items, last) ← q; return ⟨items, ⟨start, last.span.stop⟩⟩) := by
  refine h.bind ?_
  rintro ⟨items, last⟩ ⟨items', last'⟩ hr
  obtain ⟨hitems, hlast⟩ := Prod.mk.inj hr
  obtain rfl : last = last' := hlast
  exact pure (congrArg (Located.mk · _) hitems)

theorem delimited {opening closing : Token.Kind} (h : Agree e p q) (fuel : Nat) :
    Agree (Located.map (List.map e)) (delimited opening closing p fuel)
      (delimited opening closing q fuel) :=
  bind_same (expect opening) fun first => (h.itemsUntil fuel).enclose first.span.start

theorem delimitedSome {opening closing : Token.Kind} (h : Agree e p q) (fuel : Nat) :
    Agree (Located.map (List.map e)) (delimitedSome opening closing p fuel)
      (delimitedSome opening closing q fuel) :=
  bind_same (expect opening) fun first => (h.someUntil fuel).enclose first.span.start

end Agree

end GraphQL.Parser
