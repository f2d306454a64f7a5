import GraphQL.InputValue.Parser
import GraphQL.Proofs.Errs
import GraphQL.Proofs.Parser.LeftToRight
import GraphQL.Proofs.Schema.Unions

/-! What parsers fail with. A parser passes over its tokens and blames one of them or their end; the
only error that is not about a token that does not fit is that of a literal which its own scalar
type refuses. What is no error is to go round in a circle of unions. -/

namespace GraphQL

variable {schema : Schema}

/-! ### Literals that are refused -/

/-- What the expected scalar says about a literal it refuses is not heard. -/
theorem Schema.inferScalar_of_readScalar {expected : Option ScalarDef} {l : Literal}
    {error : ParseError} (h : schema.readScalar expected l = .error error) :
    schema.inferScalar l = .error error := by
  cases expected with
  | none => exact h
  | some d =>
    rw [Schema.readScalar] at h
    cases hparse : d.parse l with
    | ok value =>
      rw [hparse] at h
      cases h
    | error refusal =>
      rw [hparse] at h
      exact h

/-- What a built-in scalar refuses is a token that does not fit, but for a string with a malformed
escape, which is no token. -/
theorem Scalars.errs_of_mem_builtin {d : ScalarDef} {l : Literal} (hd : d ∈ builtin)
    (hl : ∃ text, l.cooked = .ok text) :
    Errs (· = .parse (.ofToken (.scalar l))) (d.parse l) := by
  have hrefuse : Errs (· = .parse (.ofToken (.scalar l))) (refuse l : Except Rejection Scalar) :=
    .error rfl
  have hstring : Errs (· = .parse (.ofToken (.scalar l))) (cookedString l) := by
    obtain ⟨text, htext⟩ := hl
    rw [cookedString, htext]
    exact .ok _
  have hdigits (digits : Text) :
      Errs (· = .parse (.ofToken (.scalar l))) (parseDigits l digits) := by
    unfold parseDigits
    split
    · exact .ok _
    · exact hrefuse
  simp only [builtin, List.mem_cons, List.not_mem_nil, or_false] at hd
  rcases hd with rfl | rfl | rfl | rfl | rfl
  case inl =>
    change Errs _ (parseInt l)
    cases l with
    | int digits =>
      unfold parseInt
      dsimp only
      split
      · exact .ok _
      · exact hrefuse
    | float digits => exact hrefuse
    | string style body => exact hrefuse
  case inr.inl =>
    change Errs _ (parseFloat l)
    cases l with
    | int digits => exact hdigits digits
    | float digits => exact hdigits digits
    | string style body => exact hrefuse
  case inr.inr.inl =>
    change Errs _ (parseString l)
    cases l with
    | int digits => exact hrefuse
    | float digits => exact hrefuse
    | string style body => exact hstring
  case inr.inr.inr.inl => exact hrefuse
  case inr.inr.inr.inr =>
    change Errs _ (parseId l)
    cases l with
    | int digits => exact .ok _
    | float digits => exact hrefuse
    | string style body => exact hstring

/-- A literal that a built-in scalar reads is refused as the token that it is. -/
theorem Schema.errs_inferScalar_of_type? {d : ScalarDef} {l : Literal}
    (htype : schema.type? l.typeName = some (.scalar d)) (hd : d ∈ Scalars.builtin)
    (hl : ∃ text, l.cooked = .ok text) : Errs (· = .ofToken (.scalar l)) (schema.inferScalar l) := by
  have hparse := Scalars.errs_of_mem_builtin hd hl
  rw [inferScalar, htype, Option.bind_some, TypeDef.scalar?]
  dsimp only
  generalize d.parse l = answer at hparse
  cases answer with
  | ok value => exact .ok value
  | error refusal =>
    obtain rfl := hparse refusal rfl
    exact .error rfl

/-- A literal is refused as the token that it is, or because there is no scalar to read it. -/
theorem Schema.errs_inferScalar {l : Literal}
    (hscalars : ∀ name d, schema.type? name = some (.scalar d) → d ∈ Scalars.builtin)
    (hl : ∃ text, l.cooked = .ok text) :
    Errs (fun e => e = .ofToken (.scalar l) ∨ e = l.missingType) (schema.inferScalar l) := by
  cases hscalar : (schema.type? l.typeName).bind TypeDef.scalar? with
  | none =>
    rw [inferScalar, hscalar]
    exact .error (.inr rfl)
  | some d =>
    obtain ⟨t, ht, hd⟩ := Option.bind_eq_some_iff.mp hscalar
    obtain rfl : t = .scalar d := by
      cases t <;> cases hd
      rfl
    exact fun e he => .inl (Schema.errs_inferScalar_of_type? ht (hscalars _ d ht) hl e he)

/-! ### Parsers -/

namespace Parser

variable {α β : Type} {s : Tokens} {p : Parser α}

/-- An answer of a parser leaves some of the last tokens; a refusal is at the end of the file, or at
one of the tokens, as one that does not fit or as a literal that is refused. Only where unions do not
end there is neither. -/
inductive Blamed (schema : Schema) (s : Tokens) :
    EStateM.Result Failure Tokens α → Prop
  | ok {a : α} {left : List (Located Token)} : left <:+ s.pending →
      Blamed schema s (.ok a ⟨left, s.stop⟩)
  | ended {s' : Tokens} :
      Blamed schema s (.error (.refused ⟨.unexpectedEndOfFile, .empty s.stop⟩) s')
  | unexpected {t : Located Token} {s' : Tokens} : t ∈ s.pending →
      Blamed schema s (.error (.refused ⟨.ofToken t.value, t.span⟩) s')
  | literal {t : Located Token} {l : Literal} {error : ParseError} {s' : Tokens} :
      t ∈ s.pending → t.value = .scalar l → schema.inferScalar l = .error error →
      Blamed schema s (.error (.refused ⟨error, t.span⟩) s')
  | endless {s' : Tokens} : ¬ schema.UnionsEnd → Blamed schema s (.error .endless s')

/-- A parser that blames its tokens, whatever they are. -/
def Blames (schema : Schema) (p : Parser α) : Prop := ∀ s, Blamed schema s (p s)

/-- Tokens that are left are tokens that there were. -/
theorem Blamed.of_suffix {left : List (Located Token)}
    {r : EStateM.Result Failure Tokens α} (h : Blamed schema ⟨left, s.stop⟩ r)
    (hleft : left <:+ s.pending) : Blamed schema s r := by
  cases h with
  | ok hsuffix => exact .ok (hsuffix.trans hleft)
  | ended => exact .ended
  | unexpected ht => exact .unexpected (hleft.subset ht)
  | literal ht hl herror => exact .literal (hleft.subset ht) hl herror
  | endless hcircle => exact .endless hcircle

namespace Blames

variable {f : α → Parser β}

theorem pure (a : α) : Blames schema (Pure.pure a : Parser α) := fun _ => .ok List.suffix_rfl

theorem bind (h : Blames schema p) (hf : ∀ a, Blames schema (f a)) :
    Blames schema (p >>= f) := by
  intro s
  have hp := h s
  cases hrun : p s with
  | error e s' =>
    rw [bind_of_error hrun]
    rw [hrun] at hp
    cases hp with
    | ended => exact .ended
    | unexpected ht => exact .unexpected ht
    | literal ht hl herror => exact .literal ht hl herror
    | endless hcircle => exact .endless hcircle
  | ok a s' =>
    rw [bind_of_ok hrun]
    rw [hrun] at hp
    cases hp with
    | ok hsuffix => exact (hf a _).of_suffix hsuffix

theorem map (h : Blames schema p) (f : α → β) : Blames schema (f <$> p) := by
  rw [map_eq_pure_bind]
  exact h.bind fun a => pure (f a)

theorem unexpected : Blames schema (Parser.unexpected : Parser α) := by
  rintro ⟨pending, stop⟩
  cases pending with
  | nil => exact .ended
  | cons t rest => exact .unexpected List.mem_cons_self

theorem next : Blames schema next := by
  rintro ⟨pending, stop⟩
  cases pending with
  | nil => exact .ended
  | cons t rest => exact .ok (List.suffix_cons t rest)

theorem peek {f : Located Token → Parser β} (h : ∀ s, Blamed schema s (f s.front s)) :
    Blames schema (peek >>= f) := h

theorem peek_bind {f : Located Token → Parser β} (h : ∀ t, Blames schema (f t)) :
    Blames schema (Parser.peek >>= f) := peek fun s => h s.front s

theorem comes (mark : Punctuator) : Blames schema (comes mark) := peek_bind fun _ => pure _

theorem expect (kind : Token.Kind) : Blames schema (expect kind) := by
  refine peek_bind fun t => ?_
  split
  · exact next
  · exact unexpected

theorem mark (p : Punctuator) : Blames schema (mark p) := expect _

/-- A name is taken, and then it is refused or what follows goes on with it. -/
theorem name_bind {refused : Located Text → Bool} {f : Located Text → Parser β}
    (hf : ∀ a, Blames schema (f a)) : Blames schema (Parser.name >>= fun a =>
      if refused a then
        (failAt (.ofToken (.name a.value)) a.span : Parser Unit) >>= fun _ => f a
      else f a) := by
  rintro ⟨pending, stop⟩
  cases pending with
  | nil => exact .ended
  | cons t rest =>
    obtain ⟨value, span⟩ := t
    cases value with
    | name text =>
      change Blamed schema _ ((if refused ⟨text, span⟩ then
        (failAt (.ofToken (.name text)) span : Parser Unit) >>= fun _ => f ⟨text, span⟩
        else f ⟨text, span⟩) ⟨rest, stop⟩)
      split_ifs
      · exact .unexpected (t := ⟨.name text, span⟩) List.mem_cons_self
      · exact (hf _ ⟨rest, stop⟩).of_suffix (List.suffix_cons _ rest)
    | scalar l => exact .unexpected (t := ⟨.scalar l, span⟩) List.mem_cons_self
    | mark p => exact .unexpected (t := ⟨.mark p, span⟩) List.mem_cons_self
    | endOfFile => exact .unexpected (t := ⟨.endOfFile, span⟩) List.mem_cons_self

theorem name : Blames schema name := by
  rintro ⟨pending, stop⟩
  cases pending with
  | nil => exact .ended
  | cons t rest =>
    obtain ⟨value, span⟩ := t
    cases value with
    | name text => exact .ok (List.suffix_cons _ rest)
    | scalar l => exact .unexpected (t := ⟨.scalar l, span⟩) List.mem_cons_self
    | mark p => exact .unexpected (t := ⟨.mark p, span⟩) List.mem_cons_self
    | endOfFile => exact .unexpected (t := ⟨.endOfFile, span⟩) List.mem_cons_self

theorem skip? (kind : Token.Kind) : Blames schema (skip? kind) := by
  rintro ⟨pending, stop⟩
  cases pending with
  | nil => exact .ended
  | cons t rest =>
    unfold Parser.skip?
    dsimp only
    split_ifs
    · exact .ok (List.suffix_cons t rest)
    · exact .ok List.suffix_rfl

theorem fueled {P : Nat → Parser α} (h : ∀ fuel, Blames schema (P fuel)) :
    Blames schema (fueled P) := fun s => h (s.pending.length + 1) s

theorem itemsUntil {closing : Token.Kind} (h : Blames schema p) (fuel : Nat) :
    Blames schema (itemsUntil closing p fuel) := by
  induction fuel with
  | zero => exact unexpected
  | succ fuel ih =>
    refine (skip? closing).bind fun close => ?_
    cases close with
    | some close => exact pure _
    | none => exact h.bind fun _ => ih.bind fun _ => pure _

theorem someUntil {closing : Token.Kind} (h : Blames schema p) (fuel : Nat) :
    Blames schema (someUntil closing p fuel) :=
  h.bind fun _ => (h.itemsUntil fuel).bind fun _ => pure _

theorem delimited {opening closing : Token.Kind} (h : Blames schema p) (fuel : Nat) :
    Blames schema (delimited opening closing p fuel) :=
  (expect opening).bind fun _ => (h.itemsUntil fuel).bind fun _ => pure _

theorem delimitedSome {opening closing : Token.Kind} (h : Blames schema p) (fuel : Nat) :
    Blames schema (delimitedSome opening closing p fuel) :=
  (expect opening).bind fun _ => (h.someUntil fuel).bind fun _ => pure _

end Blames

end Parser

end GraphQL
