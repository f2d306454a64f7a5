import GraphQL.Execution.Cursor
import GraphQL.Proofs.Validation.Cycles

/-! Fragments that lie in one another. Without circles no more of them do than there are, so a pass
over selections that goes on inside each fragment comes to an end by itself. -/

namespace GraphQL

open Relation

/-- Fragments that lie in one another, each put in by a spread that stands in the one before, at any
depth of its fields and inline fragments. -/
inductive Scope.Nested (scope : Scope) : SelectionSet → List Fragment → Prop where
  | nil (xs : SelectionSet) : Nested scope xs []
  | cons {xs : SelectionSet} {sp : Spread} {f : Fragment} {chain : List Fragment} :
    sp ∈ Selection.spreadsOf xs → scope.fragment? sp.name.value = some f →
      Nested scope f.selections chain → Nested scope xs (f :: chain)

theorem Fragment.leads_eq (fragments : List Fragment) :
    Cycles.Leads (spreadsFrom fragments) = Leads fragments := by
  funext a b
  simp only [Cycles.Leads, Leads, mem_spreadsFrom_iff]

theorem Scope.mem_of_fragment? {scope : Scope} {name : Text} {f : Fragment}
    (h : scope.fragment? name = some f) : f ∈ scope.fragments ∧ f.name.value = name := by
  have hname := List.find?_some h
  exact ⟨List.mem_of_find?_eq_some h, by simpa using hname⟩

namespace Scope.Nested

variable {scope : Scope} {xs : SelectionSet} {chain : List Fragment}

theorem mem (h : scope.Nested xs chain) : ∀ f ∈ chain, f ∈ scope.fragments := by
  induction h with
  | nil => exact fun _ hf => nomatch hf
  | cons _ hfound _ ih => exact List.forall_mem_cons.mpr ⟨(mem_of_fragment? hfound).1, ih⟩

/-- A fragment leads to all that lie in it. -/
theorem transGen {f : Fragment} (hf : f ∈ scope.fragments) (h : scope.Nested f.selections chain) :
    ∀ g ∈ chain,
      TransGen (Fragment.Leads scope.fragments) f.name.value g.name.value := by
  generalize hxs : f.selections = xs at h
  induction h generalizing f with
  | nil => exact fun _ hg => nomatch hg
  | @cons xs sp f' chain hsp hfound _ ih =>
    subst hxs
    obtain ⟨hmem, hname⟩ := mem_of_fragment? hfound
    have hspreads : Fragment.Spreads scope.fragments f.name.value sp :=
      ⟨f, hf, rfl, (Selection.mem_spreadsOf_iff f.selections).mp hsp⟩
    have hstep : TransGen (Fragment.Leads scope.fragments) f.name.value f'.name.value :=
      .single ⟨sp, hspreads, hname.symm⟩
    intro g hg
    rcases List.mem_cons.mp hg with rfl | hg
    · exact hstep
    · exact hstep.trans (ih hmem rfl g hg)

theorem nodup_names
    (hcirc : ∀ name, ¬ TransGen (Fragment.Leads scope.fragments) name name)
    (h : scope.Nested xs chain) : (chain.map (·.name.value)).Nodup := by
  induction h with
  | nil => exact List.nodup_nil
  | @cons xs sp f chain _ hfound hrest ih =>
    have hleads := hrest.transGen (mem_of_fragment? hfound).1
    refine List.nodup_cons.mpr ⟨fun hmem => ?_, ih⟩
    obtain ⟨g, hg, hname⟩ := List.mem_map.mp hmem
    have hback := hleads g hg
    rw [hname] at hback
    exact hcirc _ hback

theorem length_le (hcirc : ∀ name, ¬ TransGen (Fragment.Leads scope.fragments) name name)
    (h : scope.Nested xs chain) : chain.length ≤ scope.fragments.length := by
  have hsub : chain.map (·.name.value) ⊆ scope.fragments.map (·.name.value) :=
    List.map_subset _ h.mem
  have hle := (List.subperm_of_subset (h.nodup_names hcirc) hsub).length_le
  simpa only [List.length_map] using hle

end Scope.Nested

/-- A pass over selections that is told how to go on inside fragments. -/
abbrev Traversal (π ρ : Type) := (π → Fragment → ρ) → π → SelectionSet → ρ

namespace Traversal

variable {π ρ : Type}

/-- How a traversal goes on inside fragments that lie at most so many deep in one another. Of those
that lie deeper it has something else. -/
def upTo (t : Traversal π ρ) (deeper : π → Fragment → ρ) : Nat → π → Fragment → ρ
  | 0 => deeper
  | n + 1 => fun p f => t (t.upTo deeper n) p f.selections

/-- Two ways of going on do the same at spreads, in places of a kind. -/
def Agree (scope : Scope) (within : π → Prop) (expand expand' : π → Fragment → ρ)
    (spreads : List Spread) : Prop :=
  ∀ sp ∈ spreads, ∀ f, scope.fragment? sp.name.value = some f →
    ∀ p, within p → expand p f = expand' p f

/-- A traversal goes on only inside fragments that are spread in its selections. -/
def IsLocal (t : Traversal π ρ) (scope : Scope) (within : π → Prop) : Prop :=
  ∀ expand expand' xs, Agree scope within expand expand' (Selection.spreadsOf xs) →
    ∀ p, within p → t expand p xs = t expand' p xs

/-- A traversal comes to an end by itself: no bound that is high enough is felt, and going on
without any bound gives one result only. -/
structure Ends (t : Traversal π ρ) (within : π → Prop) (bound : Nat)
    (result : π → SelectionSet → ρ) : Prop where
  bounded : ∀ n, bound ≤ n → ∀ deeper p xs, within p → t (t.upTo deeper n) p xs = result p xs
  unfolds : ∀ p xs, within p → result p xs = t (fun p f => result p f.selections) p xs
  unique : ∀ go : π → SelectionSet → ρ,
    (∀ p xs, within p → go p xs = t (fun p f => go p f.selections) p xs) →
      ∀ p xs, within p → go p xs = result p xs

variable {t : Traversal π ρ} {scope : Scope} {within : π → Prop}

namespace Agree

variable {expand expand' : π → Fragment → ρ}

theorem append_iff {spreads spreads' : List Spread} :
    Agree scope within expand expand' (spreads ++ spreads') ↔
      Agree scope within expand expand' spreads ∧ Agree scope within expand expand' spreads' :=
  List.forall_mem_append

theorem at_spread {sp : Spread} (h : Agree scope within expand expand' [sp]) {f : Fragment}
    (hf : scope.requireFragment sp.name.value = .ok f) {p : π} (hp : within p) :
    expand p f = expand' p f := by
  have hfound : scope.fragment? sp.name.value = some f := by
    unfold Scope.requireFragment at hf
    cases hx : scope.fragment? sp.name.value with
    | none => simp [hx] at hf
    | some g => simpa [hx] using hf
  exact h sp List.mem_cons_self f hfound p hp

end Agree

/-- Bounds that no fragments lie deeper than give the same, whatever is done below them. -/
theorem IsLocal.upTo_eq (ht : t.IsLocal scope within) (deeper deeper' : π → Fragment → ρ)
    {n m : Nat} {xs : SelectionSet}
    (hn : ∀ chain, scope.Nested xs chain → chain.length ≤ n)
    (hm : ∀ chain, scope.Nested xs chain → chain.length ≤ m) {p : π} (hp : within p) :
    t (t.upTo deeper n) p xs = t (t.upTo deeper' m) p xs := by
  induction n generalizing m xs p with
  | zero =>
    refine ht _ _ xs (fun sp hsp f hf p hp => ?_) p hp
    have hone := hn [f] (.cons hsp hf (.nil _))
    simp at hone
  | succ n ih =>
    refine ht _ _ xs (fun sp hsp f hf p hp => ?_) p hp
    have hinside {k : Nat} (hk : ∀ chain, scope.Nested xs chain → chain.length ≤ k + 1)
        (chain : List Fragment) (hchain : scope.Nested f.selections chain) : chain.length ≤ k :=
      Nat.le_of_succ_le_succ (hk (f :: chain) (.cons hsp hf hchain))
    cases m with
    | zero =>
      have hone := hm [f] (.cons hsp hf (.nil _))
      simp at hone
    | succ m => exact ih (hinside hn) (hinside hm) hp

/-- Going on without a bound is the same as going on so below a bound. -/
theorem IsLocal.eq_upTo (ht : t.IsLocal scope within) {go : π → SelectionSet → ρ}
    (hgo : ∀ p xs, within p → go p xs = t (fun p f => go p f.selections) p xs) (n : Nat)
    (xs : SelectionSet) {p : π} (hp : within p) :
    go p xs = t (t.upTo (fun p f => go p f.selections) n) p xs := by
  induction n generalizing xs p with
  | zero => exact hgo p xs hp
  | succ n ih =>
    rw [hgo p xs hp]
    exact ht _ _ xs (fun _ _ f _ p hp => ih f.selections hp) p hp

theorem IsLocal.ends (ht : t.IsLocal scope within) {bound : Nat}
    (hbound : ∀ xs chain, scope.Nested xs chain → chain.length ≤ bound)
    (deeper : π → Fragment → ρ) {result : π → SelectionSet → ρ}
    (hresult : ∀ p xs, within p → result p xs = t (t.upTo deeper bound) p xs) :
    t.Ends within bound result where
  bounded n hn deeper' p xs hp := by
    rw [hresult p xs hp]
    exact ht.upTo_eq deeper' deeper (fun chain h => Nat.le_trans (hbound xs chain h) hn)
      (hbound xs) hp
  unfolds p xs hp := by
    have hnext : t (t.upTo deeper bound) p xs = t (t.upTo deeper (bound + 1)) p xs :=
      ht.upTo_eq deeper deeper (hbound xs) (fun chain h => Nat.le_succ_of_le (hbound xs chain h)) hp
    rw [hresult p xs hp, hnext]
    exact ht _ _ xs (fun _ _ f _ p hp => (hresult p f.selections hp).symm) p hp
  unique go hgo p xs hp := by
    rw [ht.eq_upTo hgo bound xs hp, hresult p xs hp]
    exact ht.upTo_eq _ deeper (hbound xs) (hbound xs) hp

namespace Ends

variable {bound : Nat} {result : π → SelectionSet → ρ}

/-- What a traversal carries over from the insides of fragments holds of its results. -/
theorem carries (h : t.Ends within bound result) {P : ρ → Prop} (deeper : π → Fragment → ρ)
    (hdeeper : ∀ p f, P (deeper p f))
    (hstep : ∀ expand, (∀ p f, P (expand p f)) → ∀ p xs, P (t expand p xs)) :
    ∀ p xs, within p → P (result p xs) := by
  have hupTo (n : Nat) : ∀ p f, P (t.upTo deeper n p f) := by
    induction n with
    | zero => exact hdeeper
    | succ n ih => exact fun p f => hstep _ ih p f.selections
  intro p xs hp
  rw [← h.bounded bound (Nat.le_refl bound) deeper p xs hp]
  exact hstep _ (hupTo bound) p xs

end Ends

end Traversal

end GraphQL
