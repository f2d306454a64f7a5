import Mathlib.Data.List.TakeDrop
import Mathlib.Data.List.TakeWhile
import Mathlib.Tactic.SplitIfs
import GraphQL.Token.Lexer

/-! Numbers as the lexer reads them: which characters make one up, and what may follow it. -/

namespace GraphQL.Lexer

/-- Two steps succeed when the first does and the second does on what it gives. -/
theorem bind_eq_ok_iff {ε α β : Type} {x : Except ε α} {f : α → Except ε β} {b : β} :
    x >>= f = .ok b ↔ ∃ a, x = .ok a ∧ f a = .ok b := by
  cases x with
  | error e => simp [bind, Except.bind]
  | ok a => simp [bind, Except.bind]

variable {cs as rest : List SourceChar} {p q : Nat → Bool}

/-- `true` when the first character is of a class. -/
def comes (p : Nat → Bool) (cs : List SourceChar) : Bool := cs.head?.any fun c => p c.code

@[simp] theorem comes_nil : comes p [] = false := rfl

@[simp] theorem comes_cons (c : SourceChar) : comes p (c :: cs) = p c.code := rfl

theorem comes_eq_false_of_imp (h : comes q cs = false) (hpq : ∀ c, p c = true → q c = true) :
    comes p cs = false := by
  cases cs with
  | nil => rfl
  | cons c cs => exact Bool.eq_false_iff.mpr fun hp => by simp [hpq _ hp] at h

@[simp] theorem codes_nil : codes [] = [] := rfl

@[simp] theorem codes_cons (c : SourceChar) (cs : List SourceChar) :
    codes (c :: cs) = c.code :: codes cs := rfl

@[simp] theorem codes_append (as bs : List SourceChar) :
    codes (as ++ bs) = codes as ++ codes bs := List.map_append

@[simp] theorem codes_eq_nil_iff : codes cs = [] ↔ cs = [] := List.map_eq_nil_iff

/-- The characters of a class that a list begins with, up to the first that is not of it. -/
theorem span_eq_iff : cs.span (fun c => p c.code) = (as, rest) ↔
    cs = as ++ rest ∧ (∀ c ∈ codes as, p c = true) ∧ comes p rest = false := by
  rw [List.span_eq_takeWhile_dropWhile, Prod.mk.injEq]
  refine ⟨?_, ?_⟩
  · rintro ⟨rfl, rfl⟩
    refine ⟨List.takeWhile_append_dropWhile.symm, fun c hc => ?_, ?_⟩
    · obtain ⟨a, ha, rfl⟩ := List.mem_map.mp hc
      simpa using List.mem_takeWhile_imp ha
    · have := List.head?_dropWhile_not (fun c : SourceChar => p c.code) cs
      unfold comes
      cases h : (cs.dropWhile fun c => p c.code).head? with
      | none => rfl
      | some c => simpa [h] using this
  · rintro ⟨rfl, has, hrest⟩
    have hp : ∀ a ∈ as, p a.code = true := fun a ha => has _ (List.mem_map_of_mem ha)
    have htake : rest.takeWhile (fun c => p c.code) = [] := by
      cases rest with
      | nil => rfl
      | cons c rest => exact List.takeWhile_cons_of_neg (by simpa using hrest)
    have hdrop : rest.dropWhile (fun c => p c.code) = rest := by
      cases rest with
      | nil => rfl
      | cons c rest => exact List.dropWhile_cons_of_neg (by simpa using hrest)
    rw [List.takeWhile_append_of_pos hp, List.dropWhile_append_of_pos hp, htake, hdrop,
      List.append_nil]
    exact ⟨rfl, rfl⟩

theorem takeOne_eq_iff : takeOne p cs = (as, rest) ↔
    cs = as ++ rest ∧ ((as = [] ∧ comes p rest = false) ∨ ∃ c, as = [c] ∧ p c.code = true) := by
  cases cs with
  | nil =>
    simp only [takeOne, Prod.mk.injEq, List.nil_eq_append_iff]
    refine ⟨?_, ?_⟩
    · rintro ⟨rfl, rfl⟩
      exact ⟨⟨rfl, rfl⟩, .inl ⟨rfl, rfl⟩⟩
    · rintro ⟨⟨rfl, rfl⟩, -⟩
      exact ⟨rfl, rfl⟩
  | cons c cs =>
    simp only [takeOne]
    split_ifs with hc
    · rw [Prod.mk.injEq]
      refine ⟨?_, ?_⟩
      · rintro ⟨rfl, rfl⟩
        exact ⟨rfl, .inr ⟨c, rfl, hc⟩⟩
      · rintro ⟨h, ⟨rfl, hrest⟩ | ⟨a, rfl, ha⟩⟩
        · rw [← show c :: cs = rest from h, comes_cons, hc] at hrest
          cases hrest
        · cases h
          exact ⟨rfl, rfl⟩
    · rw [Prod.mk.injEq]
      refine ⟨?_, ?_⟩
      · rintro ⟨rfl, rfl⟩
        exact ⟨rfl, .inl ⟨rfl, by simpa using hc⟩⟩
      · rintro ⟨h, ⟨rfl, -⟩ | ⟨a, rfl, ha⟩⟩
        · exact ⟨rfl, h⟩
        · cases h
          exact absurd ha hc

/-- One or more decimal digits. -/
def IsDigits (ds : List Nat) : Prop := ds ≠ [] ∧ ∀ c ∈ ds, CharClass.isDigit c = true

/-- The part of a number before its fraction, without the sign: a zero alone, or digits that begin
with another one. -/
def IsWhole (ds : List Nat) : Prop := ds = [0x30] ∨ (IsDigits ds ∧ ds.head? ≠ some 0x30)

/-- A fraction, or nothing. -/
def IsFraction (ds : List Nat) : Prop := ds = [] ∨ ∃ digits, ds = 0x2E :: digits ∧ IsDigits digits

/-- The letters that begin an exponent. -/
def isExponentMark (c : Nat) : Bool := c == 0x65 || c == 0x45

def isSign (c : Nat) : Bool := c == 0x2B || c == 0x2D

/-- An exponent, or nothing. -/
def IsExponent (ds : List Nat) : Prop :=
  ds = [] ∨ ∃ mark sign digits, ds = mark :: (sign ++ digits) ∧ isExponentMark mark = true ∧
    (sign = [] ∨ ∃ s, sign = [s] ∧ isSign s = true) ∧ IsDigits digits

theorem digits_eq_ok_iff : digits cs = .ok (as, rest) ↔
    cs = as ++ rest ∧ IsDigits (codes as) ∧ comes CharClass.isDigit rest = false := by
  cases cs with
  | nil =>
    simp only [digits, failAt, reduceCtorEq, List.nil_eq_append_iff, false_iff]
    rintro ⟨⟨rfl, rfl⟩, ⟨h, -⟩, -⟩
    exact h rfl
  | cons c cs =>
    simp only [digits]
    split_ifs with hc
    · rw [Except.ok.injEq, span_eq_iff]
      refine ⟨fun ⟨h, has, hrest⟩ => ⟨h, ⟨fun hnil => ?_, has⟩, hrest⟩,
        fun ⟨h, has, hrest⟩ => ⟨h, has.2, hrest⟩⟩
      rw [codes_eq_nil_iff] at hnil
      subst hnil
      rw [← show c :: cs = rest from h, comes_cons, hc] at hrest
      cases hrest
    · simp only [failAt, reduceCtorEq, false_iff]
      rintro ⟨h, ⟨hne, has⟩, -⟩
      cases as with
      | nil => exact hne rfl
      | cons a as =>
        cases h
        exact hc (has _ List.mem_cons_self)

theorem IsDigits.not_comes {as : List SourceChar} (h : IsDigits (codes as))
    (hp : ∀ c, CharClass.isDigit c = true → p c = false) (rest : List SourceChar) :
    Lexer.comes p (as ++ rest) = false := by
  cases as with
  | nil => exact absurd rfl h.1
  | cons a as => exact hp _ (h.2 _ List.mem_cons_self)

theorem integerPart_eq_ok_iff : integerPart cs = .ok (as, rest) ↔
    cs = as ++ rest ∧ IsWhole (codes as) ∧ comes CharClass.isDigit rest = false := by
  cases cs with
  | nil =>
    rw [integerPart, digits_eq_ok_iff]
    refine ⟨fun ⟨h, has, hrest⟩ => ?_, fun ⟨h, has, hrest⟩ => ?_⟩
    · rw [(List.append_eq_nil_iff.mp h.symm).1] at has
      exact absurd rfl has.1
    · rw [(List.append_eq_nil_iff.mp h.symm).1] at has
      rcases has with has | ⟨has, -⟩
      · cases has
      · exact absurd rfl has.1
  | cons c cs =>
    by_cases hc : c.isChar '0'
    · have hcode : c.code = 0x30 := by simpa [SourceChar.isChar] using hc
      have hzero : integerPart (c :: cs) = .ok (as, rest) ↔
          as = [c] ∧ rest = cs ∧ comes CharClass.isDigit cs = false := by
        cases cs with
        | nil => simp [integerPart, hc, eq_comm]
        | cons d cs =>
          by_cases hd : CharClass.isDigit d.code <;> simp [integerPart, hc, hd, failAt, eq_comm]
      rw [hzero]
      refine ⟨?_, ?_⟩
      · rintro ⟨rfl, rfl, h⟩
        exact ⟨rfl, .inl (by simp [hcode]), h⟩
      · rintro ⟨h, hwhole, hrest⟩
        cases as with
        | nil =>
          rcases hwhole with hwhole | ⟨hwhole, -⟩
          · cases hwhole
          · exact absurd rfl hwhole.1
        | cons a as =>
          cases h
          rcases hwhole with hwhole | ⟨-, hwhole⟩
          · rw [codes_cons, List.cons.injEq, codes_eq_nil_iff] at hwhole
            obtain ⟨-, rfl⟩ := hwhole
            exact ⟨rfl, rfl, hrest⟩
          · exact absurd (by simp [hcode]) hwhole
    · have hcode : c.code ≠ 0x30 := by simpa [SourceChar.isChar] using hc
      have hdigits : integerPart (c :: cs) = digits (c :: cs) := by simp [integerPart, hc]
      rw [hdigits, digits_eq_ok_iff]
      refine and_congr_right fun h => and_congr_left fun _ => ?_
      cases as with
      | nil => exact ⟨fun h => absurd rfl h.1, fun h => h.elim (fun h => nomatch h) And.left⟩
      | cons a as =>
        cases h
        exact ⟨fun h => .inr ⟨h, by simpa using hcode⟩,
          fun h => h.elim (fun h => absurd (List.cons.inj h).1 hcode) And.left⟩

/-- What a fraction or an exponent may be followed by: no digit, and where there is none, no mark
that would begin it. -/
def endsPart (mark : Nat → Bool) (part rest : List SourceChar) : Prop :=
  comes (if part = [] then mark else CharClass.isDigit) rest = false

theorem fractionPart_of_not_comes (h : comes (· == 0x2E) cs = false) :
    fractionPart cs = .ok ([], cs) := by
  have htake : takeOne (· == '.'.toNat) cs = ([], cs) := takeOne_eq_iff.mpr ⟨rfl, .inl ⟨rfl, h⟩⟩
  rw [fractionPart, htake]

theorem fractionPart_cons_eq_ok_iff {c : SourceChar} (hc : c.code = 0x2E) :
    fractionPart (c :: cs) = .ok (as, rest) ↔
      ∃ ds, as = c :: ds ∧ digits cs = .ok (ds, rest) := by
  have htake : takeOne (· == '.'.toNat) (c :: cs) = ([c], cs) :=
    takeOne_eq_iff.mpr ⟨rfl, .inr ⟨c, rfl, by simp [hc]⟩⟩
  rw [fractionPart, htake]
  simp only [bind_eq_ok_iff, Prod.exists, Except.ok.injEq, Prod.mk.injEq, List.cons_append,
    List.nil_append]
  exact ⟨fun ⟨ds, r, hd, ha, hr⟩ => ⟨ds, ha.symm, hr ▸ hd⟩,
    fun ⟨ds, ha, hd⟩ => ⟨ds, rest, hd, ha.symm, rfl⟩⟩

theorem fractionPart_eq_ok_iff : fractionPart cs = .ok (as, rest) ↔
    cs = as ++ rest ∧ IsFraction (codes as) ∧ endsPart (· == 0x2E) as rest := by
  by_cases hc : comes (· == 0x2E) cs = true
  · cases cs with
    | nil => cases hc
    | cons c cs =>
      have hcode : c.code = 0x2E := by simpa using hc
      rw [fractionPart_cons_eq_ok_iff hcode]
      refine ⟨?_, ?_⟩
      · rintro ⟨ds, rfl, hds⟩
        obtain ⟨rfl, hdigits, hrest⟩ := digits_eq_ok_iff.mp hds
        exact ⟨rfl, .inr ⟨codes ds, by simp [hcode], hdigits⟩, hrest⟩
      · rintro ⟨h, hfrac, hrest⟩
        cases as with
        | nil =>
          rw [List.nil_append] at h
          rw [endsPart, if_pos rfl, ← h, hc] at hrest
          cases hrest
        | cons a ds =>
          cases h
          rcases hfrac with hfrac | ⟨digits, hfrac, hdigits⟩
          · cases hfrac
          · rw [codes_cons, List.cons.injEq] at hfrac
            refine ⟨ds, rfl, digits_eq_ok_iff.mpr ⟨rfl, hfrac.2 ▸ hdigits, ?_⟩⟩
            simpa [endsPart] using hrest
  · rw [Bool.not_eq_true] at hc
    rw [fractionPart_of_not_comes hc, Except.ok.injEq, Prod.mk.injEq]
    refine ⟨?_, ?_⟩
    · rintro ⟨rfl, rfl⟩
      exact ⟨rfl, .inl rfl, hc⟩
    · rintro ⟨h, hfrac, -⟩
      cases as with
      | nil => exact ⟨rfl, h⟩
      | cons a ds =>
        subst h
        rcases hfrac with hfrac | ⟨digits, hfrac, -⟩
        · cases hfrac
        · simp [(List.cons.inj hfrac).1] at hc

theorem exponentPart_of_not_comes (h : comes isExponentMark cs = false) :
    exponentPart cs = .ok ([], cs) := by
  have htake : takeOne (fun c => c == 'e'.toNat || c == 'E'.toNat) cs = ([], cs) :=
    takeOne_eq_iff.mpr ⟨rfl, .inl ⟨rfl, h⟩⟩
  rw [exponentPart, htake]

theorem exponentPart_cons_eq_ok_iff {c : SourceChar} (hc : isExponentMark c.code = true) :
    exponentPart (c :: cs) = .ok (as, rest) ↔
      ∃ ds, as = c :: ((takeOne isSign cs).1 ++ ds) ∧
        digits (takeOne isSign cs).2 = .ok (ds, rest) := by
  have htake : takeOne (fun c => c == 'e'.toNat || c == 'E'.toNat) (c :: cs) = ([c], cs) :=
    takeOne_eq_iff.mpr ⟨rfl, .inr ⟨c, rfl, hc⟩⟩
  have hsign : takeOne (fun c => c == '+'.toNat || c == '-'.toNat) cs = takeOne isSign cs := rfl
  rw [exponentPart, htake]
  simp only [hsign, bind_eq_ok_iff, Prod.exists, Except.ok.injEq, Prod.mk.injEq, List.cons_append,
    List.nil_append]
  exact ⟨fun ⟨ds, r, hd, ha, hr⟩ => ⟨ds, ha.symm, hr ▸ hd⟩,
    fun ⟨ds, ha, hd⟩ => ⟨ds, rest, hd, ha.symm, rfl⟩⟩

theorem isSign_of_isDigit {c : Nat} (h : CharClass.isDigit c = true) : isSign c = false := by
  simp only [CharClass.isDigit, Bool.and_eq_true, decide_eq_true_eq] at h
  simp only [isSign, Bool.or_eq_false_iff, beq_eq_false_iff_ne]
  omega

theorem exponentPart_eq_ok_iff : exponentPart cs = .ok (as, rest) ↔
    cs = as ++ rest ∧ IsExponent (codes as) ∧ endsPart isExponentMark as rest := by
  by_cases hc : comes isExponentMark cs = true
  · cases cs with
    | nil => cases hc
    | cons c cs =>
      rw [exponentPart_cons_eq_ok_iff hc]
      refine ⟨?_, ?_⟩
      · rintro ⟨ds, rfl, hds⟩
        obtain ⟨hsplit, hsign⟩ := takeOne_eq_iff.mp (Prod.eta (takeOne isSign cs)).symm
        obtain ⟨hrest, hdigits, hend⟩ := digits_eq_ok_iff.mp hds
        refine ⟨?_, .inr ⟨c.code, codes (takeOne isSign cs).1, codes ds, by simp, hc, ?_,
          hdigits⟩, hend⟩
        · rw [List.cons_append, List.append_assoc, ← hrest, ← hsplit]
        · rcases hsign with ⟨hs, -⟩ | ⟨a, hs, ha⟩
          · exact .inl (by simp [hs])
          · exact .inr ⟨a.code, by simp [hs], ha⟩
      · rintro ⟨h, hexp, hend⟩
        cases as with
        | nil =>
          rw [List.nil_append] at h
          rw [endsPart, if_pos rfl, ← h, hc] at hend
          cases hend
        | cons a as =>
          rw [List.cons_append, List.cons.injEq] at h
          obtain ⟨rfl, rfl⟩ := h
          rcases hexp with hexp | ⟨mark, sign, digits, hexp, -, hsign, hdigits⟩
          · cases hexp
          · rw [codes_cons, List.cons.injEq] at hexp
            obtain ⟨signs, ds, rfl, rfl, rfl⟩ := List.map_eq_append_iff.mp hexp.2
            have htake : takeOne isSign (signs ++ ds ++ rest) = (signs, ds ++ rest) := by
              refine takeOne_eq_iff.mpr ⟨List.append_assoc _ _ _, ?_⟩
              rcases hsign with hs | ⟨s, hs, hs'⟩
              · exact .inl ⟨codes_eq_nil_iff.mp hs,
                  hdigits.not_comes (fun _ => isSign_of_isDigit) rest⟩
              · obtain ⟨a, rfl, rfl⟩ := List.map_eq_singleton_iff.mp hs
                exact .inr ⟨a, rfl, hs'⟩
            refine ⟨ds, by rw [htake], ?_⟩
            rw [htake]
            exact digits_eq_ok_iff.mpr ⟨rfl, hdigits, by simpa [endsPart] using hend⟩
  · rw [Bool.not_eq_true] at hc
    rw [exponentPart_of_not_comes hc, Except.ok.injEq, Prod.mk.injEq]
    refine ⟨?_, ?_⟩
    · rintro ⟨rfl, rfl⟩
      exact ⟨rfl, .inl rfl, hc⟩
    · rintro ⟨h, hexp, -⟩
      cases as with
      | nil => exact ⟨rfl, h⟩
      | cons a ds =>
        subst h
        rcases hexp with hexp | ⟨mark, sign, digits, hexp, hmark, -⟩
        · cases hexp
        · have ha : a.code = mark := (List.cons.inj hexp).1
          rw [List.cons_append, comes_cons, ha, hmark] at hc
          cases hc

/-- The characters of a number: a sign, the whole part, a fraction and an exponent. It is a float
if it has one of the last two. -/
def IsNumber (isFloat : Bool) (ds : List Nat) : Prop :=
  ∃ sign whole fraction exponent, ds = sign ++ (whole ++ (fraction ++ exponent)) ∧
    (sign = [] ∨ sign = [0x2D]) ∧ IsWhole whole ∧ IsFraction fraction ∧ IsExponent exponent ∧
    isFloat = !(fraction.isEmpty && exponent.isEmpty)

/-- Characters that may not follow a number. -/
def runsOn (c : Nat) : Bool := CharClass.isNameContinue c || c == 0x2E

def numberLiteral (isFloat : Bool) (text : Text) : Literal :=
  if isFloat then .float text else .int text

theorem endsNumber_eq_true_iff : endsNumber rest = true ∧ comes CharClass.isDigit rest = false ↔
    comes runsOn rest = false := by
  cases rest with
  | nil => simp [endsNumber]
  | cons c rest =>
    simp [endsNumber, runsOn, CharClass.isNameContinue, SourceChar.isChar]
    tauto

/-- A number read part by part. -/
theorem number_eq_ok_iff_parts {token : Token} : number cs = .ok (token, as, rest) ↔
    ∃ whole r₁ fraction r₂ exponent,
      integerPart (takeOne (· == 0x2D) cs).2 = .ok (whole, r₁) ∧
      fractionPart r₁ = .ok (fraction, r₂) ∧ exponentPart r₂ = .ok (exponent, rest) ∧
      endsNumber rest = true ∧
      as = (takeOne (· == 0x2D) cs).1 ++ whole ++ fraction ++ exponent ∧
      token = .scalar (numberLiteral (!(fraction.isEmpty && exponent.isEmpty))
        (Source.bytes as)) := by
  have hsign : takeOne (· == '-'.toNat) cs = takeOne (· == 0x2D) cs := rfl
  unfold number
  simp only [hsign, bind_eq_ok_iff, Prod.exists]
  have hliteral (b : Bool) (t : Text) :
      (if b = true then Literal.int t else .float t) = numberLiteral (!b) t := by
    cases b <;> rfl
  simp only [hliteral]
  refine ⟨?_, ?_⟩
  · rintro ⟨whole, r₁, h1, fraction, r₂, h2, exponent, r₃, h3, h⟩
    split_ifs at h with hend
    · cases h
    · cases h
      exact ⟨whole, r₁, fraction, r₂, exponent, h1, h2, h3, by simpa using hend, rfl, rfl⟩
  · rintro ⟨whole, r₁, fraction, r₂, exponent, h1, h2, h3, hend, rfl, rfl⟩
    exact ⟨whole, r₁, h1, fraction, r₂, h2, exponent, rest, h3, by rw [hend]; rfl⟩

theorem IsWhole.not_comes {as : List SourceChar} (h : IsWhole (codes as))
    (hp : ∀ c, CharClass.isDigit c = true → p c = false) (rest : List SourceChar) :
    comes p (as ++ rest) = false := by
  rcases h with h | ⟨h, -⟩
  · obtain ⟨a, rfl, ha⟩ := List.map_eq_singleton_iff.mp h
    exact hp _ (by rw [ha]; rfl)
  · exact h.not_comes hp rest

theorem IsFraction.not_comes {as : List SourceChar} (h : IsFraction (codes as))
    (hp : p 0x2E = false) (hrest : comes p rest = false) : comes p (as ++ rest) = false := by
  cases as with
  | nil => exact hrest
  | cons a as =>
    rcases h with h | ⟨digits, h, -⟩
    · cases h
    · have ha : a.code = 0x2E := (List.cons.inj h).1
      rw [List.cons_append, comes_cons, ha, hp]

theorem IsExponent.not_comes {as : List SourceChar} (h : IsExponent (codes as))
    (hp : ∀ c, isExponentMark c = true → p c = false) (hrest : comes p rest = false) :
    comes p (as ++ rest) = false := by
  cases as with
  | nil => exact hrest
  | cons a as =>
    rcases h with h | ⟨mark, sign, digits, h, hmark, -⟩
    · cases h
    · have ha : a.code = mark := (List.cons.inj h).1
      rw [List.cons_append, comes_cons, ha, hp _ hmark]

theorem endsPart_of_not_comes {mark : Nat → Bool} (hmark : comes mark rest = false)
    (hdigit : comes CharClass.isDigit rest = false) : endsPart mark as rest := by
  unfold endsPart
  split_ifs
  · exact hmark
  · exact hdigit

theorem eq_of_isExponentMark {c : Nat} (h : isExponentMark c = true) : c = 0x65 ∨ c = 0x45 := by
  simpa [isExponentMark] using h

/-- A number is as long as can be: what follows it does not run on from it. -/
theorem number_eq_ok_iff {token : Token} : number cs = .ok (token, as, rest) ↔
    cs = as ++ rest ∧ comes runsOn rest = false ∧ ∃ isFloat, IsNumber isFloat (codes as) ∧
      token = .scalar (numberLiteral isFloat (Source.bytes as)) := by
  rw [number_eq_ok_iff_parts, ← endsNumber_eq_true_iff]
  refine ⟨?_, ?_⟩
  · rintro ⟨whole, r₁, fraction, r₂, exponent, h1, h2, h3, hend, rfl, rfl⟩
    obtain ⟨hsplit, hsign⟩ := takeOne_eq_iff.mp (Prod.eta (takeOne (· == 0x2D) cs)).symm
    obtain ⟨e1, hwhole, d1⟩ := integerPart_eq_ok_iff.mp h1
    obtain ⟨rfl, hfraction, d2⟩ := fractionPart_eq_ok_iff.mp h2
    obtain ⟨rfl, hexponent, d3⟩ := exponentPart_eq_ok_iff.mp h3
    have hdigit : comes CharClass.isDigit rest = false := by
      by_cases he : exponent = []
      · by_cases hf : fraction = []
        · simpa [he, hf] using d1
        · simpa [he, hf, endsPart] using d2
      · simpa [he, endsPart] using d3
    rw [e1] at hsplit
    refine ⟨hsplit.trans (by simp only [List.append_assoc]), ⟨hend, hdigit⟩, _,
      ⟨codes (takeOne (· == 0x2D) cs).1, codes whole, codes fraction, codes exponent, by simp, ?_,
        hwhole, hfraction, hexponent, ?_⟩, rfl⟩
    · rcases hsign with ⟨hs, -⟩ | ⟨a, hs, ha⟩
      · exact .inl (by simp [hs])
      · exact .inr (by simpa [hs] using ha)
    · simp [codes]
  · rintro ⟨rfl, ⟨hend, hdigit⟩, isFloat, ⟨sign, whole, fraction, exponent, hcodes, hsign, hwhole,
      hfraction, hexponent, rfl⟩, rfl⟩
    obtain ⟨signs, as₁, rfl, rfl, hcodes₁⟩ := List.map_eq_append_iff.mp hcodes
    obtain ⟨wholes, as₂, rfl, rfl, hcodes₂⟩ := List.map_eq_append_iff.mp hcodes₁
    obtain ⟨fractions, exponents, rfl, rfl, rfl⟩ := List.map_eq_append_iff.mp hcodes₂
    have hmarks := endsNumber_eq_true_iff.mp ⟨hend, hdigit⟩
    have htake : takeOne (· == 0x2D) (signs ++ (wholes ++ (fractions ++ exponents)) ++ rest) =
        (signs, wholes ++ (fractions ++ (exponents ++ rest))) := by
      refine takeOne_eq_iff.mpr ⟨by simp only [List.append_assoc], ?_⟩
      rcases hsign with hs | hs
      · refine .inl ⟨codes_eq_nil_iff.mp hs, hwhole.not_comes (fun c hc => ?_) _⟩
        refine beq_eq_false_iff_ne.mpr fun h => ?_
        rw [h] at hc
        cases hc
      · obtain ⟨a, rfl, ha⟩ := List.map_eq_singleton_iff.mp hs
        exact .inr ⟨a, rfl, by simp [ha]⟩
    have h3 : comes CharClass.isDigit (exponents ++ rest) = false :=
      hexponent.not_comes (fun c hc => by rcases eq_of_isExponentMark hc with rfl | rfl <;> rfl)
        hdigit
    have h2 : comes CharClass.isDigit (fractions ++ (exponents ++ rest)) = false :=
      hfraction.not_comes rfl h3
    have h2' : comes (· == 0x2E) (exponents ++ rest) = false :=
      hexponent.not_comes (fun c hc => by rcases eq_of_isExponentMark hc with rfl | rfl <;> rfl)
        (comes_eq_false_of_imp hmarks fun c hc => by rw [eq_of_beq hc]; rfl)
    have h3' : comes isExponentMark rest = false :=
      comes_eq_false_of_imp hmarks fun c hc => by
        rcases eq_of_isExponentMark hc with rfl | rfl <;> rfl
    refine ⟨wholes, fractions ++ (exponents ++ rest), fractions, exponents ++ rest, exponents,
      ?_, ?_, ?_, hend, ?_, ?_⟩
    · rw [htake]
      exact integerPart_eq_ok_iff.mpr ⟨rfl, hwhole, h2⟩
    · exact fractionPart_eq_ok_iff.mpr ⟨rfl, hfraction, endsPart_of_not_comes h2' h3⟩
    · exact exponentPart_eq_ok_iff.mpr ⟨rfl, hexponent, endsPart_of_not_comes h3' hdigit⟩
    · rw [htake]
      simp only [List.append_assoc]
    · simp only [List.isEmpty_map]

end GraphQL.Lexer
