import Mathlib.Tactic.SplitIfs
import GraphQL.Text.Utf8

/-! What a decoder answers depends on the bytes of one sequence alone: a well-formed sequence is the
encoding of its code, and what follows it is not looked at. -/

namespace GraphQL.Utf8

/-- Bytes that go on with a sequence and never begin one. -/
def isContinuation (b : UInt8) : Bool := 0x80 ≤ b.toNat && b.toNat < 0xC0

/-- `true` when the text does not go on with a sequence that was begun before it. -/
def startsFresh (t : Text) : Bool := !t.head?.any isContinuation

theorem continue?_length {k bits : Nat} {rest : Text} {c : Nat}
    (h : continue? k bits rest = some c) : k ≤ rest.length := by
  induction k generalizing bits rest with
  | zero => exact Nat.zero_le _
  | succ k ih =>
    cases rest with
    | nil => simp [continue?] at h
    | cons b rest =>
      simp only [continue?] at h
      split_ifs at h
      exact Nat.succ_le_succ (ih h)

theorem continue?_append {k bits : Nat} {rest : Text} {c : Nat}
    (h : continue? k bits rest = some c) (more : Text) :
    continue? k bits (rest ++ more) = some c := by
  induction k generalizing bits rest with
  | zero => exact h
  | succ k ih =>
    cases rest with
    | nil => simp [continue?] at h
    | cons b rest =>
      simp only [continue?, List.cons_append] at h ⊢
      split_ifs at h ⊢
      exact ih h

/-- The payloads of `k` continuation bytes are read from those bytes. -/
theorem continue?_of_append {k bits : Nat} {rest more : Text} (hk : k ≤ rest.length) :
    continue? k bits (rest ++ more) = continue? k bits rest := by
  induction k generalizing bits rest with
  | zero => rfl
  | succ k ih =>
    cases rest with
    | nil => simp at hk
    | cons b rest =>
      simp only [continue?, List.cons_append]
      rw [ih (Nat.le_of_succ_le_succ hk)]

theorem continue?_append_fresh {k bits : Nat} {rest more : Text} (hm : startsFresh more) :
    continue? k bits (rest ++ more) = continue? k bits rest := by
  induction rest generalizing k bits with
  | nil =>
    cases k with
    | zero => rfl
    | succ k =>
      cases more with
      | nil => rfl
      | cons b more =>
        have hb : isContinuation b = false := by simpa [startsFresh] using hm
        unfold isContinuation at hb
        simp only [List.nil_append, continue?, hb, Bool.false_eq_true, if_false]
  | cons b rest ih =>
    cases k with
    | zero => rfl
    | succ k =>
      simp only [continue?, List.cons_append]
      rw [ih]

theorem wellFormed?_append_fresh {b : UInt8} {rest more : Text} (hm : startsFresh more) :
    wellFormed? b (rest ++ more) = wellFormed? b rest := by
  simp only [wellFormed?, continue?_append_fresh hm]

theorem wellFormed?_append {b : UInt8} {rest : Text} {d : Decoded}
    (h : wellFormed? b rest = some d) (more : Text) : wellFormed? b (rest ++ more) = some d := by
  simp only [wellFormed?, Option.bind_eq_bind, Option.bind_eq_some_iff] at h ⊢
  obtain ⟨lead, hl, code, hc, hd⟩ := h
  exact ⟨lead, hl, code, continue?_append hc more, hd⟩

theorem wellFormed?_of_append {b : UInt8} {rest more : Text} {d : Decoded}
    (h : wellFormed? b (rest ++ more) = some d) (hd : d.width ≤ rest.length + 1) :
    wellFormed? b rest = some d := by
  simp only [wellFormed?, Option.bind_eq_bind, Option.bind_eq_some_iff] at h ⊢
  obtain ⟨lead, hl, code, hc, hcode⟩ := h
  refine ⟨lead, hl, code, ?_, hcode⟩
  split_ifs at hcode
  cases hcode
  rw [← hc]
  exact (continue?_of_append (by simpa [Nat.sub_le_iff_le_add] using hd)).symm

theorem width_wellFormed?_le {b : UInt8} {rest : Text} {d : Decoded}
    (h : wellFormed? b rest = some d) : d.width ≤ rest.length + 1 := by
  simp only [wellFormed?, Option.bind_eq_bind, Option.bind_eq_some_iff] at h
  obtain ⟨lead, -, code, hc, hcode⟩ := h
  split_ifs at hcode
  cases hcode
  have := continue?_length hc
  dsimp only
  omega

theorem width_decode_le (b : UInt8) (rest : Text) : (decode b rest).width ≤ rest.length + 1 := by
  unfold decode
  cases h : wellFormed? b rest with
  | none => exact Nat.le_add_left 1 _
  | some d => exact width_wellFormed?_le h

theorem decode_append_fresh {b : UInt8} {rest more : Text} (hm : startsFresh more) :
    decode b (rest ++ more) = decode b rest := by
  rw [decode, decode, wellFormed?_append_fresh hm]

/-- A character is decoded alike when what follows it is cut off. -/
theorem decode_of_append {b : UInt8} {rest more : Text}
    (h : (decode b (rest ++ more)).width ≤ rest.length + 1) :
    decode b rest = decode b (rest ++ more) := by
  unfold decode at h ⊢
  cases hd : wellFormed? b (rest ++ more) with
  | some d =>
    rw [hd] at h
    rw [wellFormed?_of_append hd h]
  | none =>
    cases hd' : wellFormed? b rest with
    | none => rfl
    | some d => rw [wellFormed?_append hd' more] at hd; cases hd

theorem continue?_succ {k bits : Nat} {rest : Text} {c : Nat}
    (h : continue? (k + 1) bits rest = some c) :
    ∃ b more, rest = b :: more ∧ 0x80 ≤ b.toNat ∧ b.toNat < 0xC0 ∧
      continue? k (bits * 0x40 + (b.toNat - 0x80)) more = some c := by
  cases rest with
  | nil => simp [continue?] at h
  | cons b more =>
    simp only [continue?] at h
    split_ifs at h with hb
    rw [Bool.and_eq_true, decide_eq_true_eq, decide_eq_true_eq] at hb
    exact ⟨b, more, rfl, hb.1, hb.2, h⟩

theorem ofNat_eq_of_toNat {b : UInt8} {n : Nat} (h : n = b.toNat) : UInt8.ofNat n = b := by
  rw [h, UInt8.ofNat_toNat]

/-- A well-formed sequence is the encoding of a scalar value. -/
theorem take_wellFormed? {b : UInt8} {rest : Text} {d : Decoded}
    (h : wellFormed? b rest = some d) :
    (b :: rest).take d.width = encode d.code ∧ isScalarValue d.code = true := by
  simp only [wellFormed?, Option.bind_eq_bind, Option.bind_eq_some_iff] at h
  obtain ⟨lead, hl, code, hc, hd⟩ := h
  split_ifs at hd with hcode
  cases hd
  rw [Bool.and_eq_true, decide_eq_true_eq] at hcode
  obtain ⟨hmin, hscalar⟩ := hcode
  refine ⟨?_, hscalar⟩
  have hmax : code ≤ 0x10FFFF := by
    rw [isScalarValue, Bool.and_eq_true, decide_eq_true_eq] at hscalar
    exact hscalar.1
  have hb := b.toNat_lt
  simp only [lead?] at hl
  split_ifs at hl with h1 h2 h3 h4
  all_goals
    cases hl
    simp only [Bool.and_eq_true, decide_eq_true_eq] at *
  · obtain rfl : b.toNat = code := Option.some.inj hc
    rw [encode, if_pos h1, UInt8.ofNat_toNat]
    rfl
  · obtain ⟨b1, more, rfl, _, _, hc⟩ := continue?_succ hc
    have hcode := Option.some.inj hc
    rw [encode, if_neg (by omega), if_pos (by omega), continuation,
      ofNat_eq_of_toNat (b := b) (by omega), ofNat_eq_of_toNat (b := b1) (by omega)]
    rfl
  · obtain ⟨b1, more, rfl, _, _, hc⟩ := continue?_succ hc
    obtain ⟨b2, more, rfl, _, _, hc⟩ := continue?_succ hc
    have hcode := Option.some.inj hc
    rw [encode, if_neg (by omega), if_neg (by omega), if_pos (by omega), continuation, continuation,
      ofNat_eq_of_toNat (b := b) (by omega), ofNat_eq_of_toNat (b := b1) (by omega),
      ofNat_eq_of_toNat (b := b2) (by omega)]
    rfl
  · obtain ⟨b1, more, rfl, _, _, hc⟩ := continue?_succ hc
    obtain ⟨b2, more, rfl, _, _, hc⟩ := continue?_succ hc
    obtain ⟨b3, more, rfl, _, _, hc⟩ := continue?_succ hc
    have hcode := Option.some.inj hc
    rw [encode, if_neg (by omega), if_neg (by omega), if_neg (by omega), continuation, continuation,
      continuation, ofNat_eq_of_toNat (b := b) (by omega), ofNat_eq_of_toNat (b := b1) (by omega),
      ofNat_eq_of_toNat (b := b2) (by omega), ofNat_eq_of_toNat (b := b3) (by omega)]
    rfl

theorem wellFormed?_ascii {b : UInt8} (hb : b.toNat < 0x80) (rest : Text) :
    wellFormed? b rest = some ⟨b.toNat, 1⟩ := by
  have hs : isScalarValue b.toNat = true := by
    simp [isScalarValue, isSurrogate, isHighSurrogate, isLowSurrogate]
    omega
  simp [wellFormed?, lead?, hb, continue?, hs]

theorem decode_ascii {b : UInt8} (hb : b.toNat < 0x80) (rest : Text) :
    decode b rest = ⟨b.toNat, 1⟩ := by
  rw [decode, wellFormed?_ascii hb, Option.getD_some]

theorem encode_ascii {c : Nat} (h : c < 0x80) : encode c = [UInt8.ofNat c] := if_pos h

/-- All bytes of a longer sequence are past ASCII. -/
theorem toNat_ge_of_mem_encode {c : Nat} (h : 0x80 ≤ c) {b : UInt8} (hb : b ∈ encode c) :
    0x80 ≤ b.toNat := by
  have hlow (n : Nat) (hn : 0x80 ≤ n) (hn' : n < 0x100) : 0x80 ≤ (UInt8.ofNat n).toNat := by
    rw [UInt8.toNat_ofNat']
    omega
  rw [encode, if_neg (by omega)] at hb
  split_ifs at hb with h2 h3
  all_goals
    simp only [continuation, List.mem_cons, List.not_mem_nil, or_false] at hb
  · rcases hb with rfl | rfl <;> exact hlow _ (by omega) (by omega)
  · rcases hb with rfl | rfl | rfl <;> exact hlow _ (by omega) (by omega)
  · rcases hb with rfl | rfl | rfl | rfl <;> exact hlow _ (by omega) (by omega)

theorem toNat_byte {n : Nat} (h : n < 0x100) : (UInt8.ofNat n).toNat = n :=
  UInt8.toNat_ofNat_of_lt' h

theorem toNat_continuation (c : Nat) : (continuation c).toNat = 0x80 + c % 0x40 :=
  toNat_byte (by omega)

theorem continue?_continuation (k bits c : Nat) (rest : Text) :
    continue? (k + 1) bits (continuation c :: rest) =
      continue? k (bits * 0x40 + c % 0x40) rest := by
  have hlow : 0x80 ≤ 0x80 + c % 0x40 := by omega
  have hhigh : 0x80 + c % 0x40 < 0xC0 := by omega
  simp only [continue?, toNat_continuation, hlow, hhigh, decide_true, Bool.and_self, if_true,
    Nat.add_sub_cancel_left]

theorem lead?_two {n : Nat} (h : n < 0x20) :
    lead? (UInt8.ofNat (0xC0 + n)) = some ⟨2, n, 0x80⟩ := by
  have hb : (UInt8.ofNat (0xC0 + n)).toNat = 0xC0 + n := toNat_byte (by omega)
  simp only [lead?, hb, Bool.and_eq_true, decide_eq_true_eq]
  rw [if_neg (by omega), if_pos (by omega), Nat.add_sub_cancel_left]

theorem lead?_three {n : Nat} (h : n < 0x10) :
    lead? (UInt8.ofNat (0xE0 + n)) = some ⟨3, n, 0x800⟩ := by
  have hb : (UInt8.ofNat (0xE0 + n)).toNat = 0xE0 + n := toNat_byte (by omega)
  simp only [lead?, hb, Bool.and_eq_true, decide_eq_true_eq]
  rw [if_neg (by omega), if_neg (by omega), if_pos (by omega), Nat.add_sub_cancel_left]

theorem lead?_four {n : Nat} (h : n < 0x08) :
    lead? (UInt8.ofNat (0xF0 + n)) = some ⟨4, n, 0x10000⟩ := by
  have hb : (UInt8.ofNat (0xF0 + n)).toNat = 0xF0 + n := toNat_byte (by omega)
  simp only [lead?, hb, Bool.and_eq_true, decide_eq_true_eq]
  rw [if_neg (by omega), if_neg (by omega), if_neg (by omega), if_pos (by omega),
    Nat.add_sub_cancel_left]

theorem wellFormed?_of_lead {b : UInt8} {rest : Text} {k bits smallest c : Nat}
    (hlead : lead? b = some ⟨k + 1, bits, smallest⟩) (hcode : continue? k bits rest = some c)
    (hmin : smallest ≤ c) (hc : isScalarValue c = true) :
    wellFormed? b rest = some ⟨c, k + 1⟩ := by
  simp only [wellFormed?, hlead, Nat.add_sub_cancel, hcode, Option.bind_eq_bind, Option.bind_some,
    hmin, hc, decide_true, Bool.and_self, if_true]

/-- The encoding of a scalar value is read back, whatever comes after it. -/
theorem wellFormed?_encode {c : Nat} (hc : isScalarValue c = true) (rest : Text) :
    ∃ b more, encode c = b :: more ∧ wellFormed? b (more ++ rest) = some ⟨c, more.length + 1⟩ := by
  have hmax : c ≤ 0x10FFFF := by
    rw [isScalarValue, Bool.and_eq_true, decide_eq_true_eq] at hc
    exact hc.1
  unfold encode
  split_ifs with h1 h2 h3
  · have hb : (UInt8.ofNat c).toNat = c := toNat_byte (by omega)
    refine ⟨_, [], rfl, ?_⟩
    rw [wellFormed?_ascii (by rwa [hb]), hb]
    rfl
  · refine ⟨_, _, rfl, wellFormed?_of_lead (lead?_two (by omega)) ?_ (Nat.le_of_not_lt h1) hc⟩
    refine (continue?_continuation 0 _ _ _).trans (congrArg some ?_)
    omega
  · refine ⟨_, _, rfl, wellFormed?_of_lead (lead?_three (by omega)) ?_ (Nat.le_of_not_lt h2) hc⟩
    refine (continue?_continuation 1 _ _ _).trans ?_
    refine (continue?_continuation 0 _ _ _).trans (congrArg some ?_)
    omega
  · have hbits : c / 0x40000 % 0x10 < 0x08 := by omega
    refine ⟨_, _, rfl, wellFormed?_of_lead (lead?_four hbits) ?_ (Nat.le_of_not_lt h3) hc⟩
    refine (continue?_continuation 2 _ _ _).trans ?_
    refine (continue?_continuation 1 _ _ _).trans ?_
    refine (continue?_continuation 0 _ _ _).trans (congrArg some ?_)
    omega

end GraphQL.Utf8
