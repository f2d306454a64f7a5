import GraphQL.Proofs.Document.Blames
import GraphQL.Proofs.Document.Bracketed
import GraphQL.Proofs.Document.Printing

/-! The texts of references to types. What a type prints is read back as that type wherever no
further mark refuses null, and whatever is read as a type prints as it was written. -/

namespace GraphQL

/-- References to types that can be written: their names are names of the language, and no list says
how many items it expects. -/
inductive TypeRef.IsPrintable : TypeRef → Prop
  | named {name : Text} (nonNull : Bool) : name.isName = true → IsPrintable (.named name nonNull)
  | list {element : TypeRef} (nonNull : Bool) : IsPrintable element →
      IsPrintable (.list element none nonNull)

namespace TypeRef

open Lexer (Prints)

variable {t : TypeRef} {text : Text} {ts : List Token}

theorem flatMap_toText_bangTokens (nonNull : Bool) :
    (tokens.bangTokens nonNull).flatMap Token.toText = bang nonNull := by
  cases nonNull <;> rfl

/-- The tokens of a type show as the type does. -/
theorem flatMap_toText_tokens (t : TypeRef) : t.tokens.flatMap Token.toText = t.toText := by
  induction t with
  | named name nonNull =>
    rw [tokens, List.flatMap_cons, flatMap_toText_bangTokens]
    rfl
  | list element size nonNull ih =>
    rw [tokens, List.flatMap_cons, List.flatMap_append, List.flatMap_cons, ih,
      flatMap_toText_bangTokens, toText, List.append_assoc, List.append_assoc]
    rfl

/-- The mark goes with what stands right before it. -/
theorem prints_bang (h : Prints text ts) (nonNull : Bool) :
    Prints (text ++ bang nonNull) (ts ++ tokens.bangTokens nonNull) := by
  cases nonNull with
  | true =>
    intro rest values _ hlexes
    have hmark := hlexes.mark (b := 0x21) (p := .exclamationMark) (by decide) rfl
    have hprinted := h _ _ (Lexer.closes_cons (by decide) rest) hmark
    rw [List.append_assoc, List.append_assoc]
    exact hprinted
  | false =>
    rw [bang, tokens.bangTokens, if_neg Bool.false_ne_true, if_neg Bool.false_ne_true,
      List.append_nil, List.append_nil]
    exact h

theorem IsPrintable.prints (h : t.IsPrintable) : Prints t.toText t.tokens := by
  induction h with
  | named nonNull hname => exact prints_bang (InputValue.prints_name hname) nonNull
  | list nonNull _ ih =>
    have hlist := ih.between (o := 0x5B) (c := 0x5D) (by decide) rfl (by decide) rfl
    rw [tokens, List.append_cons]
    exact prints_bang hlist nonNull

theorem IsPrintable.isUnsized (h : t.IsPrintable) : t.isUnsized = true := by
  induction h with
  | named _ _ => rfl
  | list _ _ ih => exact ih

end TypeRef

namespace Parser

variable {s s' : Tokens} {t : Located TypeRef}

/-- What is read as a type is taken from the tokens at hand: they are those of the type, its span is
theirs, and the end of the file stays where it is. -/
theorem typeRef_takes (schema : Schema) (h : typeRef s = .ok t s') : ∃ taken,
    s.pending = taken ++ s'.pending ∧ s'.stop = s.stop ∧
      taken.map (·.value) = t.value.tokens ∧ Span.hull? (taken.map (·.span)) = some t.span := by
  have hlays : Lays schema typeRef fun t => [TypeRef.layout t] := typeRef_lays
  have hblames : Blames schema typeRef := typeRef_blames
  obtain ⟨taken, hpending, hstand⟩ := hlays h
  obtain ⟨htokens, hspan⟩ := Layout.stand_part_iff.mp hstand
  have hblamed := hblames s
  rw [h] at hblamed
  refine ⟨taken, hpending, ?_, Layout.stand_tokens_iff.mp htokens, hspan⟩
  cases hblamed
  rfl

/-- Where the tokens of a type stand and no mark that refuses null comes next, the type is read from
just them. -/
theorem typeRef_read {t : TypeRef} {ts rest : List (Located Token)} (ht : t.isUnsized = true)
    (hts : ts.map (·.value) = t.tokens)
    (hrest : ∀ next ∈ rest.head?, next.value ≠ .mark .exclamationMark) (stop : Position) :
    ∃ span, Span.hull? (ts.map (·.span)) = some span ∧
      typeRef ⟨ts ++ rest, stop⟩ = .ok ⟨t, span⟩ ⟨rest, stop⟩ := by
  have hvalues : Tokens.values ⟨ts ++ rest, stop⟩ = t.tokens ++ rest.map (·.value) := by
    rw [Tokens.values, List.map_append, hts]
  have hspared : Spares .exclamationMark (rest.map (·.value)) := by
    rw [Spares, List.head?_map]
    exact Option.forall_mem_map.mpr hrest
  obtain ⟨⟨t', span⟩, ⟨left, stop'⟩, hread, rfl, hleft⟩ :=
    typeRef_complete (a := .unlocated t) hvalues ⟨ht, rfl⟩ hspared
  obtain ⟨taken, htaken, rfl, htokens, hspan⟩ :=
    typeRef_takes ⟨[], lit "Query", none, none, [], none⟩ hread
  -- as many tokens were taken as the type has, so that they are those in front
  have hlength : ts.length = taken.length := by
    rw [← List.length_map, hts, ← htokens, List.length_map]
  obtain ⟨rfl, rfl⟩ := List.append_inj htaken hlength
  exact ⟨span, hspan, hread⟩

/-- Types go back and forth. What a type prints is lexed without error, and wherever its tokens
stand without a further mark that refuses null, just they are taken and the type is the answer, with
the span from the first to the last. And whatever tokens a type is read from show, one after
another, as that type prints. -/
theorem typeRef_toText :
    (∀ t : TypeRef, t.IsPrintable → ∃ written, Tokens.ofText t.toText = .ok written ∧
      ∀ (ts rest : List (Located Token)) (stop : Position),
        ts.map (·.value) = written.values →
        (∀ next ∈ rest.head?, next.value ≠ .mark .exclamationMark) →
        ∃ span, Span.hull? (ts.map (·.span)) = some span ∧
          typeRef ⟨ts ++ rest, stop⟩ = .ok ⟨t, span⟩ ⟨rest, stop⟩) ∧
    ∀ (s s' : Tokens) (t : Located TypeRef), typeRef s = .ok t s' → ∃ taken,
      s.pending = taken ++ s'.pending ∧ s'.stop = s.stop ∧
        Span.hull? (taken.map (·.span)) = some t.span ∧
        taken.flatMap (·.value.toText) = t.value.toText := by
  constructor
  · intro t ht
    obtain ⟨written, hwritten, hvalues⟩ := ht.prints.ofText
    refine ⟨written, hwritten, fun ts rest stop hts hrest => ?_⟩
    exact typeRef_read ht.isUnsized (hts.trans hvalues) hrest stop
  · intro s s' t h
    obtain ⟨taken, hpending, hstop, htokens, hspan⟩ :=
      typeRef_takes ⟨[], lit "Query", none, none, [], none⟩ h
    refine ⟨taken, hpending, hstop, hspan, ?_⟩
    rw [← TypeRef.flatMap_toText_tokens, ← htokens, List.flatMap_map]

end Parser

namespace Nested

/-- A list that is there, of lists of numbers that are there. -/
def type : TypeRef := .list (.list (.named (lit "Int") true) none false) none true

example : type.toText = lit "[[Int!]]!" := by decide

def equals : Located Token := ⟨.mark .equals, ⟨⟨9, 0, 9⟩, ⟨10, 0, 10⟩⟩⟩

/-- The type of a variable that has a default. -/
theorem typeRef_toText_type : type.IsPrintable ∧ equals.value ≠ .mark .exclamationMark ∧
    ∃ written span, Tokens.ofText type.toText = .ok written ∧
      Span.hull? (written.pending.map (·.span)) = some span ∧
      Parser.typeRef ⟨written.pending ++ [equals], written.stop⟩ =
        .ok ⟨type, span⟩ ⟨[equals], written.stop⟩ ∧
      ∃ taken, written.pending ++ [equals] = taken ++ [equals] ∧
        taken.flatMap (·.value.toText) = type.toText := by
  have hprintable : type.IsPrintable := .list _ (.list _ (.named _ rfl))
  have hequals : equals.value ≠ .mark .exclamationMark := nofun
  obtain ⟨written, hwritten, hreads⟩ := Parser.typeRef_toText.1 type hprintable
  obtain ⟨span, hspan, hread⟩ := hreads written.pending [equals] written.stop rfl
    (by rintro _ ⟨⟩; exact hequals)
  obtain ⟨taken, htaken, -, -, hshown⟩ := Parser.typeRef_toText.2 _ _ _ hread
  exact ⟨hprintable, hequals, written, span, hwritten, hspan, hread, taken, htaken, hshown⟩

end Nested

end GraphQL
