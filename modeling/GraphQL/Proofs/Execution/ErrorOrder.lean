import Mathlib.Data.List.Pairwise
import GraphQL.Execution.Error

/-! The order of errors in a response. Errors in one place of the document and of the response with
one message are not told apart by it, so that they may come in any order among themselves. The order
in which errors are recorded shows in a response in such errors only. -/

namespace GraphQL

section Ordered

variable {α : Type} [Ord α] [Std.TransOrd α]

theorem isLE_compare_trans (a b c : α) (hab : (compare a b).isLE = true)
    (hbc : (compare b c).isLE = true) : (compare a c).isLE = true :=
  Std.TransOrd.isLE_trans hab hbc

theorem isLE_compare_total (a b : α) : ((compare a b).isLE || (compare b a).isLE) = true := by
  rw [Std.OrientedOrd.eq_swap (a := b)]
  cases compare a b <;> rfl

end Ordered

theorem Position.compare_def : (compare : Position → Position → Ordering) =
    compareLex (compareOn index) (compareLex (compareOn line) (compareOn column)) := rfl

instance : Std.TransOrd Position :=
  inferInstanceAs <| Std.TransCmp
    (compareLex (compareOn Position.index)
      (compareLex (compareOn Position.line) (compareOn Position.column)))

instance : Std.LawfulEqOrd Position where
  compare_self := Std.ReflOrd.compare_self
  eq_of_compare {p q} h := by
    rw [Position.compare_def, compareLex_eq_eq, compareLex_eq_eq] at h
    obtain ⟨p1, p2, p3⟩ := p
    obtain ⟨q1, q2, q3⟩ := q
    simpa [compareOn] using h

namespace PathSegment

theorem compare_swap : ∀ a b : PathSegment, compare a b = (compare b a).swap
  | key a, key b => Std.OrientedOrd.eq_swap (a := a) (b := b)
  | key _, index _ => rfl
  | index _, key _ => rfl
  | index i, index j => Std.OrientedOrd.eq_swap (a := i) (b := j)

theorem isLE_trans : ∀ a b c : PathSegment, (compare a b).isLE = true →
    (compare b c).isLE = true → (compare a c).isLE = true
  | key a, key b, key c, hab, hbc => Std.TransOrd.isLE_trans (a := a) (b := b) (c := c) hab hbc
  | key _, _, index _, _, _ => rfl
  | key _, index _, key _, _, hbc => nomatch hbc
  | index _, key _, _, hab, _ => nomatch hab
  | index _, index _, key _, _, hbc => nomatch hbc
  | index i, index j, index k, hij, hjk =>
    Std.TransOrd.isLE_trans (a := i) (b := j) (c := k) hij hjk

theorem eq_of_compare : ∀ a b : PathSegment, compare a b = .eq → a = b
  | key a, key b, h => congrArg key (Std.LawfulEqOrd.eq_of_compare (a := a) (b := b) h)
  | index i, index j, h => congrArg index (Std.LawfulEqOrd.eq_of_compare (a := i) (b := j) h)

instance : Std.TransOrd PathSegment where
  eq_swap := compare_swap _ _
  isLE_trans := isLE_trans _ _ _

instance : Std.LawfulEqOrd PathSegment where
  compare_self := Std.ReflOrd.compare_self
  eq_of_compare := eq_of_compare _ _

end PathSegment

namespace ExecutionError

def key (e : ExecutionError) : Position × ResponsePath × Text := (e.location, e.path, e.message)

theorem compare_def : (compare : ExecutionError → ExecutionError → Ordering) =
    compareLex (compareOn location) (compareLex (compareOn path) (compareOn message)) := rfl

instance : Std.TransOrd ExecutionError :=
  inferInstanceAs <| Std.TransCmp
    (compareLex (compareOn location) (compareLex (compareOn path) (compareOn message)))

theorem compare_eq_iff {a b : ExecutionError} : compare a b = .eq ↔ a.key = b.key := by
  rw [compare_def, compareLex_eq_eq, compareLex_eq_eq]
  simp [compareOn, key]

theorem key_eq_of_isLE {a b : ExecutionError} (hab : (compare a b).isLE = true)
    (hba : (compare b a).isLE = true) : a.key = b.key :=
  compare_eq_iff.mp (Std.OrientedCmp.isLE_antisymm hab hba)

theorem pairwise_sort (errors : List ExecutionError) :
    (sort errors).Pairwise fun a b => (compare a b).isLE = true :=
  List.pairwise_mergeSort isLE_compare_trans isLE_compare_total errors

theorem sort_perm (errors : List ExecutionError) : (sort errors).Perm errors :=
  List.mergeSort_perm _ _

/-- Errors in an order in which a response may list them. Those that compare alike may come in any
order among themselves. -/
structure Arranges (arranged errors : List ExecutionError) : Prop where
  perm : arranged.Perm errors
  inOrder : arranged.Pairwise fun a b => (compare a b).isLE = true

theorem arranges_sort {xs ys : List ExecutionError} (h : xs.Perm ys) : Arranges (sort xs) ys :=
  ⟨(sort_perm xs).trans h, pairwise_sort xs⟩

/-- All ways of listing errors agree on the place, the path and the message of each. -/
theorem Arranges.map_key_eq {xs ys errors : List ExecutionError} (hx : Arranges xs errors)
    (hy : Arranges ys errors) : xs.map key = ys.map key := by
  have hsorted {zs : List ExecutionError} (h : Arranges zs errors) : (zs.map key).Pairwise fun k l =>
      ((compare k.1 l.1).then ((compare k.2.1 l.2.1).then (compare k.2.2 l.2.2))).isLE = true :=
    List.pairwise_map.mpr h.inOrder
  have hperm : xs.Perm ys := hx.perm.trans hy.perm.symm
  refine List.Perm.eq_of_pairwise (fun k l hk hl hkl hlk => ?_) (hsorted hx) (hsorted hy)
    (hperm.map key)
  obtain ⟨a, _, rfl⟩ := List.mem_map.mp hk
  obtain ⟨b, _, rfl⟩ := List.mem_map.mp hl
  exact key_eq_of_isLE hkl hlk

/-- Whatever order errors are recorded in, a response lists them in one order. -/
theorem map_key_sort_of_perm {xs ys : List ExecutionError} (h : xs.Perm ys) :
    (sort xs).map key = (sort ys).map key :=
  (arranges_sort h).map_key_eq (arranges_sort (.refl ys))

/-- Errors that differ are told apart by their order, in a list of them. -/
def Distinguished (errors : List ExecutionError) : Prop :=
  ∀ a ∈ errors, ∀ b ∈ errors, a.key = b.key → a = b

theorem Arranges.eq_of_distinguished {xs ys errors : List ExecutionError} (hx : Arranges xs errors)
    (hy : Arranges ys errors) (hd : Distinguished errors) : xs = ys := by
  refine List.Perm.eq_of_pairwise (fun a b ha hb hab hba => ?_) hx.inOrder hy.inOrder
    (hx.perm.trans hy.perm.symm)
  have ha : a ∈ errors := hx.perm.subset ha
  have hb : b ∈ errors := hy.perm.subset hb
  exact hd a ha b hb (key_eq_of_isLE hab hba)

theorem sort_eq_of_perm {xs ys : List ExecutionError} (h : xs.Perm ys) (hd : Distinguished xs) :
    sort xs = sort ys :=
  (arranges_sort (.refl xs)).eq_of_distinguished (arranges_sort h.symm) hd

/-- Errors that compare alike stay in the order in which they were recorded. -/
theorem filter_sort (k : Position × ResponsePath × Text) (errors : List ExecutionError) :
    (sort errors).filter (fun e => e.key = k) = errors.filter fun e => e.key = k := by
  have halike : (errors.filter fun e => e.key = k).Pairwise fun a b =>
      (compare a b).isLE = true := by
    refine List.pairwise_of_forall_mem_list fun a ha b hb => ?_
    have ha : a.key = k := by simpa using (List.mem_filter.mp ha).2
    have hb : b.key = k := by simpa using (List.mem_filter.mp hb).2
    rw [compare_eq_iff.mpr (ha.trans hb.symm)]
    rfl
  have hsub : (errors.filter fun e => e.key = k).Sublist (sort errors) :=
    List.sublist_mergeSort isLE_compare_trans isLE_compare_total halike List.filter_sublist
  have hfiltered := hsub.filter fun e => e.key = k
  rw [List.filter_filter] at hfiltered
  simp only [Bool.and_self] at hfiltered
  exact (hfiltered.eq_of_length ((sort_perm errors).filter _).length_eq.symm).symm

/-- Two errors of a list that differ can be recorded first and second, either way round. -/
theorem exists_perm_cons_cons {errors : List ExecutionError} {a b : ExecutionError} (ha : a ∈ errors)
    (hb : b ∈ errors) (hab : a ≠ b) : ∃ rest, (a :: b :: rest).Perm errors := by
  obtain ⟨before, after, rfl⟩ := List.append_of_mem ha
  have hfirst : (before ++ a :: after).Perm (a :: (before ++ after)) := List.perm_middle
  have hb : b ∈ before ++ after :=
    (List.mem_cons.mp (hfirst.subset hb)).resolve_left hab.symm
  obtain ⟨before', after', hrest⟩ := List.append_of_mem hb
  rw [hrest] at hfirst
  exact ⟨before' ++ after', ((List.perm_middle.symm).cons a).trans hfirst.symm⟩

/-- What the order in which errors are recorded shows in. Whatever order they are recorded in, and
in whatever way they are then put in order, the places, paths and messages come out the same. The
errors themselves do, whatever the order in which they are recorded, exactly if no two of them
differ in extensions only; then there is but one way to put them in order. -/
theorem sort_invariant_iff (errors : List ExecutionError) :
    (∀ recorded arranged, recorded.Perm errors → Arranges arranged recorded →
      arranged.map key = (sort errors).map key) ∧
    ((∀ recorded, recorded.Perm errors → sort recorded = sort errors) ↔ Distinguished errors) ∧
    ((∀ recorded arranged, recorded.Perm errors → Arranges arranged recorded →
      arranged = sort errors) ↔ Distinguished errors) := by
  have harranges {recorded arranged : List ExecutionError} (hp : recorded.Perm errors)
      (h : Arranges arranged recorded) : Arranges arranged errors := ⟨h.perm.trans hp, h.inOrder⟩
  have hsort : Arranges (sort errors) errors := arranges_sort (.refl errors)
  have hdistinguished (hsame : ∀ recorded, recorded.Perm errors → sort recorded = sort errors) :
      Distinguished errors := by
    intro a ha b hb hkey
    by_contra hab
    obtain ⟨rest, hrest⟩ := exists_perm_cons_cons ha hb hab
    have hswapped : (b :: a :: rest).Perm errors := (List.Perm.swap a b rest).trans hrest
    have heq : sort (a :: b :: rest) = sort (b :: a :: rest) :=
      (hsame _ hrest).trans (hsame _ hswapped).symm
    have hfilter := congrArg (List.filter fun e => e.key = a.key) heq
    rw [filter_sort, filter_sort] at hfilter
    simp only [List.filter_cons, hkey, decide_true, if_true, List.cons.injEq] at hfilter
    exact hab hfilter.1
  refine ⟨fun recorded arranged hp h => (harranges hp h).map_key_eq hsort, ⟨hdistinguished, ?_⟩, ?_⟩
  · exact fun hd recorded hp => (arranges_sort hp).eq_of_distinguished hsort hd
  · constructor
    · exact fun h => hdistinguished fun recorded hp => h recorded _ hp (arranges_sort (.refl _))
    · exact fun hd recorded arranged hp h => (harranges hp h).eq_of_distinguished hsort hd

namespace Tied

/-- Errors in one place and with one message. The extensions tell them apart. -/
def error (n : Int32) : ExecutionError :=
  ⟨.origin, [.key (lit "a")], .of (lit "no a") (.scalar (.int n))⟩

theorem sort_depends : ∃ recorded, recorded.Perm [error 1, error 2] ∧
    sort recorded ≠ sort [error 1, error 2] := by
  by_contra hnone
  have hsame : ∀ recorded, recorded.Perm [error 1, error 2] →
      sort recorded = sort [error 1, error 2] := by
    intro recorded hp
    by_contra hne
    exact hnone ⟨recorded, hp, hne⟩
  have hd : Distinguished [error 1, error 2] := (sort_invariant_iff _).2.1.mp hsame
  have heq : error 1 = error 2 := hd (error 1) (by simp) (error 2) (by simp) rfl
  have hvalue : Value.scalar (.int 1) = .scalar (.int 2) :=
    congrArg (fun e => e.error.extensions) heq
  simp at hvalue

end Tied

section More

variable {xs ys more : List ExecutionError}

theorem eq_nil_of_length_sort (h : xs.Perm (ys ++ more))
    (hlen : (sort xs).length = (sort ys).length) : more = [] := by
  have hx := (sort_perm xs).length_eq
  have hy := (sort_perm ys).length_eq
  have hxy := h.length_eq
  rw [List.length_append] at hxy
  exact List.eq_nil_of_length_eq_zero (by omega)

theorem sort_perm_append (h : xs.Perm (ys ++ more)) : (sort xs).Perm (sort ys ++ more) :=
  (sort_perm xs).trans (h.trans ((sort_perm ys).symm.append_right more))

/-- A response lists the same errors as another exactly when it has no more of them. -/
theorem map_key_sort_eq_iff (h : xs.Perm (ys ++ more)) :
    (sort xs).map key = (sort ys).map key ↔ more = [] := by
  constructor
  · intro he
    have hlen := congrArg List.length he
    rw [List.length_map, List.length_map] at hlen
    exact eq_nil_of_length_sort h hlen
  · rintro rfl
    exact map_key_sort_of_perm (by rwa [List.append_nil] at h)

theorem sort_eq_iff (h : xs.Perm (ys ++ more)) (hd : Distinguished (sort xs)) :
    sort xs = sort ys ↔ more = [] := by
  constructor
  · exact fun he => eq_nil_of_length_sort h (congrArg List.length he)
  · rintro rfl
    rw [List.append_nil] at h
    refine sort_eq_of_perm h fun a ha b hb => hd a ?_ b ?_
    · exact (sort_perm xs).symm.subset ha
    · exact (sort_perm xs).symm.subset hb

end More

end ExecutionError

end GraphQL
