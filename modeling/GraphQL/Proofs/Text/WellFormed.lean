import GraphQL.Proofs.Source.Chars
import GraphQL.Proofs.Text.Characters
import GraphQL.Token.Lexer

/-! Well-formed text: the bytes of a string. Characters that are encoded one after another are such
text, and pieces of it stay so when they are put together. -/

namespace GraphQL

open Utf8 (Spells)

/-- The bytes of a string. -/
def Text.IsWellFormed (t : Text) : Prop := ∃ s : String, lit s = t

namespace Text

variable {t u : Text}

/-- Well-formed text is encoded characters, one after another. -/
theorem isWellFormed_iff_spells : t.IsWellFormed ↔ Spells (fun _ => True) t := by
  constructor
  · rintro ⟨s, rfl⟩
    rw [lit_eq_flatMap]
    exact Utf8.spells_flatMap s.toList
  · intro h
    induction h with
    | nil => exact ⟨"", rfl⟩
    | char hscalar _ _ ih =>
      obtain ⟨s, rfl⟩ := ih
      rw [Utf8.encode_eq_lit hscalar, ← lit_append]
      exact ⟨_, rfl⟩

namespace IsWellFormed

theorem lit (s : String) : (lit s).IsWellFormed := ⟨s, rfl⟩

theorem nil : IsWellFormed [] := lit ""

theorem append (ht : t.IsWellFormed) (hu : u.IsWellFormed) : (t ++ u).IsWellFormed := by
  obtain ⟨a, rfl⟩ := ht
  obtain ⟨b, rfl⟩ := hu
  exact ⟨a ++ b, lit_append a b⟩

theorem encode {c : Nat} (h : Utf8.isScalarValue c = true) : (Utf8.encode c).IsWellFormed :=
  ⟨_, (Utf8.encode_eq_lit h).symm⟩

theorem cons {b : UInt8} (hb : b.toNat < 0x80) (ht : t.IsWellFormed) : IsWellFormed (b :: t) :=
  isWellFormed_iff_spells.mpr ((isWellFormed_iff_spells.mp ht).ascii hb trivial)

/-- What is quoted stays whole between what stands around it. -/
theorem between (before after : String) (ht : t.IsWellFormed) :
    (GraphQL.lit before ++ t ++ GraphQL.lit after).IsWellFormed :=
  ((lit before).append ht).append (lit after)

theorem flatMap {α : Type} {f : α → Text} {as : List α} (h : ∀ a ∈ as, (f a).IsWellFormed) :
    IsWellFormed (as.flatMap f) := by
  induction as with
  | nil => exact nil
  | cons a as ih =>
    obtain ⟨ha, has⟩ := List.forall_mem_cons.mp h
    exact ha.append (ih has)

theorem chain {separator : Text} {parts : List Text} (hseparator : separator.IsWellFormed)
    (hparts : ∀ part ∈ parts, part.IsWellFormed) : (Text.chain separator parts).IsWellFormed := by
  fun_induction Text.chain separator parts with
  | case1 => exact nil
  | case2 part parts _ ih => exact ih (List.forall_mem_cons.mp hparts).2
  | case3 part parts _ =>
    obtain ⟨hpart, hparts⟩ := List.forall_mem_cons.mp hparts
    exact hpart.append (flatMap fun more hmore => hseparator.append (hparts more hmore))

end IsWellFormed

end Text

namespace SourceChar

variable {c : SourceChar}

/-- Every character of a source can be shown, also a byte that is no character. -/
theorem Faithful.isWellFormed_display (h : c.Faithful) : (Utf8.display c.code).IsWellFormed := by
  have hshown : Utf8.isScalarValue (if c.code = Utf8.malformed then 0xFFFD else c.code) = true := by
    split_ifs with hcode
    · rfl
    · exact (h.resolve_right fun hbyte => hcode hbyte.1).1
  exact .encode hshown

theorem Faithful.isWellFormed_bytes (h : c.Faithful) (hcode : c.code ≠ Utf8.malformed) :
    c.bytes.IsWellFormed := by
  obtain ⟨hscalar, hbytes⟩ := h.resolve_right fun hbyte => hcode hbyte.1
  rw [hbytes]
  exact .encode hscalar

end SourceChar

/-- Characters of a source as they are written, if none of them is a stray byte. -/
theorem Source.isWellFormed_bytes {as : List SourceChar} (has : ∀ c ∈ as, c.Faithful)
    (hcodes : ∀ c ∈ Lexer.codes as, c ≠ Utf8.malformed) : (bytes as).IsWellFormed :=
  .flatMap fun c hc => (has c hc).isWellFormed_bytes (hcodes c.code (List.mem_map_of_mem hc))

end GraphQL
