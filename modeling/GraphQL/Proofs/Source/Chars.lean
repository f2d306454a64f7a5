import Mathlib.Tactic.ByContra
import GraphQL.Proofs.Text.Utf8
import GraphQL.Source.Chars

/-! The characters of a source: each stands where the bytes before it end, is written with its own
encoding, and is read alike wherever it stands. -/

namespace GraphQL

namespace SourceChar

/-- A character as it comes of decoding: a scalar value in its encoding, or a byte past ASCII that
begins no sequence. -/
def Faithful (c : SourceChar) : Prop :=
  (Utf8.isScalarValue c.code = true ∧ c.bytes = Utf8.encode c.code) ∨
    (c.code = Utf8.malformed ∧ ∃ b : UInt8, c.bytes = [b] ∧ 0x80 ≤ b.toNat)

theorem Faithful.bytes_ascii {c : SourceChar} (h : c.Faithful) (hc : c.code < 0x80) :
    c.bytes = [UInt8.ofNat c.code] := by
  rcases h with ⟨-, h⟩ | ⟨h, -⟩
  · rw [h, Utf8.encode_ascii hc]
  · rw [h] at hc
    exact absurd hc (by decide)

theorem Faithful.toNat_ge {c : SourceChar} (h : c.Faithful) (hc : 0x80 ≤ c.code) {b : UInt8}
    (hb : b ∈ c.bytes) : 0x80 ≤ b.toNat := by
  rcases h with ⟨-, h⟩ | ⟨-, b', h, hb'⟩
  · exact Utf8.toNat_ge_of_mem_encode hc (h ▸ hb)
  · rw [h, List.mem_singleton] at hb
    exact hb ▸ hb'

theorem Faithful.bytes_ne_nil {c : SourceChar} (h : c.Faithful) : c.bytes ≠ [] := by
  rcases h with ⟨-, h⟩ | ⟨-, b, h, -⟩
  · rw [h, Utf8.encode]
    split_ifs <;> exact List.cons_ne_nil _ _
  · rw [h]
    exact List.cons_ne_nil _ _

/-- A character without its place. -/
def unplaced (c : SourceChar) : SourceChar := { c with position := .origin }

end SourceChar

theorem Position.index_after (p : Position) (code width : Nat) (beforeLineFeed : Bool) :
    (p.after code width beforeLineFeed).index = p.index + width := by
  unfold Position.after
  split_ifs <;> rfl

namespace Source

variable {as bs : List SourceChar} {stop : Position} {n : Nat}

@[simp] theorem bytes_nil : bytes [] = [] := rfl

@[simp] theorem bytes_cons (c : SourceChar) (cs : List SourceChar) :
    bytes (c :: cs) = c.bytes ++ bytes cs := rfl

@[simp] theorem bytes_append (as bs : List SourceChar) :
    bytes (as ++ bs) = bytes as ++ bytes bs := List.flatMap_append

theorem bytes_decode (b : UInt8) (rest : Text) (p : Position) :
    (⟨(Utf8.decode b rest).code, (b :: rest).take (Utf8.decode b rest).width, p⟩ :
      SourceChar).Faithful := by
  unfold Utf8.decode
  cases h : Utf8.wellFormed? b rest with
  | some d => exact .inl (Utf8.take_wellFormed? h).symm
  | none =>
    refine .inr ⟨rfl, b, rfl, ?_⟩
    by_contra hb
    rw [Utf8.wellFormed?_ascii (Nat.lt_of_not_le hb)] at h
    cases h

/-- A character of ASCII is its first byte. -/
theorem code_decode_of_ascii {b : UInt8} {rest : Text} (h : (Utf8.decode b rest).code < 0x80) :
    (Utf8.decode b rest).code = b.toNat := by
  have hwidth := Utf8.width_decode_pos b rest
  have hbytes : (b :: rest).take (Utf8.decode b rest).width =
      [UInt8.ofNat (Utf8.decode b rest).code] := (bytes_decode b rest .origin).bytes_ascii h
  obtain ⟨w, hw⟩ : ∃ w, (Utf8.decode b rest).width = w + 1 :=
    ⟨_, (Nat.sub_add_cancel hwidth).symm⟩
  rw [hw, List.take_succ_cons, List.cons.injEq] at hbytes
  have hb : b.toNat = (UInt8.ofNat (Utf8.decode b rest).code).toNat :=
    congrArg UInt8.toNat hbytes.1
  rw [hb, Utf8.toNat_byte (by omega)]

theorem faithful_read (inside : Nat) (p : Position) (t : Text) :
    ∀ c ∈ (read inside p t).chars, c.Faithful := by
  fun_induction read inside p t with
  | case1 => exact List.forall_mem_nil _
  | case2 inside p b rest ih => exact ih
  | case3 p b rest d tail ih =>
    exact List.forall_mem_cons.mpr ⟨bytes_decode b rest p, ih⟩

/-- Characters that stand one after another from offset `n` on, up to `stop`. -/
def Placed : (n : Nat) → List SourceChar → (stop : Position) → Prop
  | n, [], stop => stop.index = n
  | n, c :: cs, stop => c.position.index = n ∧ Placed (n + c.bytes.length) cs stop

theorem placed_read (inside : Nat) (p : Position) (t : Text) :
    Placed p.index (read inside p t).chars (read inside p t).stop := by
  fun_induction read inside p t with
  | case1 => rfl
  | case2 inside p b rest ih => exact ih
  | case3 p b rest d tail ih =>
    refine ⟨rfl, ?_⟩
    have hw : d.width ≤ (b :: rest).length := Utf8.width_decode_le b rest
    have hlen : ((b :: rest).take d.width).length = d.width := List.length_take_of_le hw
    rw [Position.index_after] at ih
    rw [hlen]
    exact ih

theorem Placed.tail (h : Placed n (as ++ bs) stop) : Placed (n + (bytes as).length) bs stop := by
  induction as generalizing n with
  | nil => exact h
  | cons c as ih =>
    have := ih h.2
    rwa [bytes_cons, List.length_append, ← Nat.add_assoc]

theorem Placed.index_position (h : Placed n as stop) : (position ⟨as, stop⟩).index = n := by
  cases as with
  | nil => exact h
  | cons c as => exact h.1

/-- Characters without their places. -/
def unplaced (cs : List SourceChar) : List SourceChar := cs.map SourceChar.unplaced

@[simp] theorem unplaced_nil : unplaced [] = [] := rfl

@[simp] theorem unplaced_cons (c : SourceChar) (cs : List SourceChar) :
    unplaced (c :: cs) = c.unplaced :: unplaced cs := rfl

@[simp] theorem unplaced_append (as bs : List SourceChar) :
    unplaced (as ++ bs) = unplaced as ++ unplaced bs := List.map_append

@[simp] theorem bytes_unplaced (cs : List SourceChar) : bytes (unplaced cs) = bytes cs := by
  induction cs with
  | nil => rfl
  | cons c cs ih => rw [unplaced_cons, bytes_cons, bytes_cons, ih]; rfl

/-- The characters of a text without their places. -/
def plain (t : Text) : List SourceChar := unplaced (ofText t).chars

theorem read_drop (inside : Nat) (p : Position) (t : Text) :
    read inside p t = read 0 p (t.drop inside) := by
  induction inside generalizing t with
  | zero => rfl
  | succ inside ih =>
    cases t with
    | nil => rfl
    | cons b t => exact ih t

theorem unplaced_read (p q : Position) (t : Text) : ∀ inside,
    unplaced (read inside p t).chars = unplaced (read inside q t).chars := by
  induction t generalizing p q with
  | nil => exact fun inside => by cases inside <;> rfl
  | cons b rest ih =>
    intro inside
    cases inside with
    | succ inside => exact ih p q inside
    | zero =>
      simp only [read, unplaced_cons]
      rw [ih _ (q.after (Utf8.decode b rest).code (Utf8.decode b rest).width
        (rest.head? == some 0xA))]
      rfl

theorem unplaced_read_zero (p : Position) (t : Text) : unplaced (read 0 p t).chars = plain t :=
  unplaced_read p .origin t 0

@[simp] theorem plain_nil : plain [] = [] := rfl

theorem plain_cons (b : UInt8) (rest : Text) :
    plain (b :: rest) =
      ⟨(Utf8.decode b rest).code, (b :: rest).take (Utf8.decode b rest).width, .origin⟩ ::
        plain (rest.drop ((Utf8.decode b rest).width - 1)) := by
  rw [plain, ofText, read]
  rw [unplaced_cons, read_drop, unplaced_read_zero]
  rfl

theorem plain_ascii {b : UInt8} (hb : b.toNat < 0x80) (rest : Text) :
    plain (b :: rest) = ⟨b.toNat, [b], .origin⟩ :: plain rest := by
  rw [plain_cons, Utf8.decode_ascii hb]
  rfl

/-- A character is read off its encoding. -/
theorem plain_encode {c : Nat} (hc : Utf8.isScalarValue c = true) (rest : Text) :
    plain (Utf8.encode c ++ rest) = ⟨c, Utf8.encode c, .origin⟩ :: plain rest := by
  obtain ⟨b, more, hencode, hread⟩ := Utf8.wellFormed?_encode hc rest
  have hdecode : Utf8.decode b (more ++ rest) = ⟨c, more.length + 1⟩ := by
    rw [Utf8.decode, hread, Option.getD_some]
  rw [hencode, List.cons_append, plain_cons, hdecode, Nat.add_sub_cancel, List.take_succ_cons,
    List.take_left' rfl, List.drop_left' rfl]

theorem plain_byteOrderMark (rest : Text) :
    plain ([0xEF, 0xBB, 0xBF] ++ rest) = ⟨0xFEFF, [0xEF, 0xBB, 0xBF], .origin⟩ :: plain rest :=
  plain_cons 0xEF (0xBB :: 0xBF :: rest)

theorem faithful_plain {t : Text} : ∀ c ∈ plain t, c.Faithful := by
  intro c hc
  obtain ⟨a, ha, rfl⟩ := List.mem_map.mp hc
  exact faithful_read 0 .origin t a ha

@[simp] theorem bytes_plain (t : Text) : bytes (plain t) = t := by
  rw [plain, bytes_unplaced, bytes_ofText]

/-- ASCII text is read byte by byte. -/
theorem plain_append_ascii {t : Text} (ht : ∀ b ∈ t, b.toNat < 0x80) (rest : Text) :
    plain (t ++ rest) = t.map (fun b => ⟨b.toNat, [b], .origin⟩) ++ plain rest := by
  induction t with
  | nil => rfl
  | cons b t ih =>
    obtain ⟨hb, ht⟩ := List.forall_mem_cons.mp ht
    rw [List.cons_append, plain_ascii hb, ih ht]
    rfl

/-- Texts are taken apart character by character. -/
theorem text_induction {motive : Text → Prop} (nil : motive [])
    (char : ∀ b rest, motive (rest.drop ((Utf8.decode b rest).width - 1)) → motive (b :: rest))
    (t : Text) : motive t := by
  induction hn : t.length using Nat.strongRecOn generalizing t with
  | ind n ih =>
    cases t with
    | nil => exact nil
    | cons b rest =>
      refine char b rest (ih _ ?_ _ rfl)
      rw [← hn, List.length_drop, List.length_cons]
      omega

/-- A text that begins a character of its own is read as if nothing stood before it. -/
theorem plain_append_fresh (t : Text) {more : Text} (hm : Utf8.startsFresh more) :
    plain (t ++ more) = plain t ++ plain more := by
  induction t using text_induction with
  | nil => rfl
  | char b rest ih =>
    have hw := Utf8.width_decode_le b rest
    rw [List.cons_append, plain_cons, plain_cons, Utf8.decode_append_fresh hm,
      List.drop_append_of_le_length (by omega), ih, ← List.cons_append (a := b),
      List.take_append_of_le_length (by simpa using hw)]
    rfl

/-- The characters after some are the characters of what is left of the text. -/
theorem plain_drop {t : Text} (h : plain t = as ++ bs) : plain (t.drop (bytes as).length) = bs := by
  induction as generalizing t with
  | nil => exact h
  | cons a as ih =>
    cases t with
    | nil => cases h
    | cons b rest =>
      rw [plain_cons, List.cons_append, List.cons.injEq] at h
      obtain ⟨rfl, h⟩ := h
      have hle := Utf8.width_decode_le b rest
      obtain ⟨w, hw⟩ : ∃ w, (Utf8.decode b rest).width = w + 1 :=
        ⟨_, (Nat.sub_add_cancel (Utf8.width_decode_pos b rest)).symm⟩
      rw [hw, Nat.add_sub_cancel] at h
      rw [bytes_cons, List.length_append, List.length_take_of_le hle, hw, Nat.add_right_comm,
        List.drop_succ_cons, ← List.drop_drop, ih h]

/-- Characters from the beginning of a text are read alike when the rest of it is cut off. -/
theorem plain_bytes {t : Text} (h : plain t = as ++ bs) : plain (bytes as) = as := by
  induction as generalizing t with
  | nil => rfl
  | cons a as ih =>
    cases t with
    | nil => cases h
    | cons b rest =>
      rw [plain_cons, List.cons_append, List.cons.injEq] at h
      obtain ⟨ha, h⟩ := h
      obtain ⟨w, hw⟩ : ∃ w, (Utf8.decode b rest).width = w + 1 :=
        ⟨_, (Nat.sub_add_cancel (Utf8.width_decode_pos b rest)).symm⟩
      have hle := Utf8.width_decode_le b rest
      rw [hw, Nat.add_sub_cancel] at h
      have hrest : rest = rest.take w ++ bytes as ++ bytes bs := by
        rw [List.append_assoc, ← bytes_append, ← h, bytes_plain, List.take_append_drop]
      have hlen : (rest.take w).length = w := List.length_take_of_le (by omega)
      have hdecode : Utf8.decode b (rest.take w ++ bytes as) = Utf8.decode b rest := by
        conv_rhs => rw [hrest]
        refine Utf8.decode_of_append ?_
        rw [← hrest, hw, List.length_append]
        omega
      have habytes : a.bytes = b :: rest.take w := by rw [← ha, hw, List.take_succ_cons]
      rw [bytes_cons, habytes, List.cons_append, plain_cons, hdecode, hw, Nat.add_sub_cancel,
        List.drop_left' hlen, ih h, List.take_succ_cons, List.take_left' hlen, ← ha, hw,
        List.take_succ_cons]

end Source

end GraphQL
