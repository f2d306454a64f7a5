/-! How a predicate on what a computation without effects ends in instead of a result is carried
through. -/

namespace GraphQL

variable {ε α β : Type}

/-- Whatever a computation without effects ends in instead of a result satisfies a predicate. -/
def Errs (P : ε → Prop) (x : Except ε α) : Prop := ∀ e, x = .error e → P e

namespace Errs

variable {P : ε → Prop}

theorem ok (a : α) : Errs P (.ok a : Except ε α) := fun _ h => nomatch h

theorem error {e : ε} (h : P e) : Errs P (.error e : Except ε α) :=
  fun _ he => Except.error.inj he ▸ h

theorem mono {Q : ε → Prop} {x : Except ε α} (hx : Errs P x) (hPQ : ∀ e, P e → Q e) : Errs Q x :=
  fun e h => hPQ e (hx e h)

theorem bind {x : Except ε α} {f : α → Except ε β} (hx : Errs P x)
    (hf : ∀ a, x = .ok a → Errs P (f a)) : Errs P (x >>= f) := by
  intro e h
  cases x with
  | error e' =>
    cases h
    exact hx e rfl
  | ok a => exact hf a rfl e h

theorem map {x : Except ε α} (f : α → β) (hx : Errs P x) : Errs P (f <$> x) := by
  intro e h
  cases x with
  | error e' =>
    cases h
    exact hx e rfl
  | ok a => cases h

end Errs

end GraphQL
