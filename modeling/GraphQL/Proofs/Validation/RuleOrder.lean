import Mathlib.Data.List.Perm.Basic
import GraphQL.Document.Parser
import GraphQL.Validation.Rules
import GraphQL.Proofs.Execution.ErrorOrder

/-! The order of rules. The reports of a validation are put in order when all rules have run, and
reports that compare alike are the same report, so that the order of the rules shows in nothing but
what a rule finds reported when it runs. A rule that does not ask for that may run at any time. -/

namespace GraphQL

namespace RuleError

theorem compare_def : (compare : RuleError → RuleError → Ordering) =
    compareLex (compareOn locations) (compareOn message) := rfl

instance : Std.TransOrd RuleError :=
  inferInstanceAs <| Std.TransCmp (compareLex (compareOn locations) (compareOn message))

instance : Std.LawfulEqOrd RuleError where
  compare_self := Std.ReflOrd.compare_self
  eq_of_compare {a b} h := by
    rw [compare_def, compareLex_eq_eq] at h
    obtain ⟨am, al⟩ := a
    obtain ⟨bm, bl⟩ := b
    simpa [compareOn, and_comm] using h

/-- One report is listed before another: its places come first, or the places are the same and its
message is not the later one. -/
def Precedes (a b : RuleError) : Prop :=
  compare a.locations b.locations = .lt ∨
    a.locations = b.locations ∧ (compare a.message b.message).isLE = true

instance : DecidableRel Precedes := fun _ _ => inferInstanceAs <| Decidable (_ ∨ _)

theorem isLE_compare_iff {a b : RuleError} : (compare a b).isLE = true ↔ a.Precedes b := by
  unfold Precedes
  rw [← Std.LawfulEqOrd.compare_eq_iff_eq (a := a.locations)]
  change ((compare a.locations b.locations).then (compare a.message b.message)).isLE = true ↔ _
  cases compare a.locations b.locations <;> simp [Ordering.then]

/-- Reports of which each is listed before the other are the same, place by place and in every
character of the message. -/
theorem Precedes.antisymm {a b : RuleError} (hab : a.Precedes b) (hba : b.Precedes a) : a = b :=
  Std.LawfulEqOrd.eq_of_compare
    (Std.OrientedCmp.isLE_antisymm (isLE_compare_iff.mpr hab) (isLE_compare_iff.mpr hba))

/-- Reports listed in order. Nothing is said about how they are brought into it. -/
structure Arranges (arranged reports : List RuleError) : Prop where
  perm : arranged.Perm reports
  inOrder : arranged.Pairwise Precedes

/-- There is one way to list reports in order, whatever order they come in. -/
theorem Arranges.eq_of_perm {xs ys reports others : List RuleError} (hx : Arranges xs reports)
    (hy : Arranges ys others) (h : reports.Perm others) : xs = ys :=
  List.Perm.eq_of_pairwise (fun _ _ _ _ => Precedes.antisymm) hx.inOrder hy.inOrder
    (hx.perm.trans (h.trans hy.perm.symm))

end RuleError

/-- A rule that reports the same whatever has been reported before it. -/
def Rule.ReadsOnly (r : Rule) : Prop :=
  ∀ s doc reported, r.check s doc reported = r.check s doc []

/-- No rule that documents are checked by unless others are chosen asks for earlier reports. -/
theorem Rules.builtin_readsOnly : ∀ r ∈ builtin, r.ReadsOnly := by
  intro r hr s doc reported
  simp only [builtin, List.mem_cons, List.not_mem_nil, or_false] at hr
  rcases hr with rfl | rfl | rfl | rfl <;> rfl

namespace Validator

variable {v w : Validator}

theorem arranges_validate (v : Validator) (s : Schema) (doc : Document) :
    RuleError.Arranges (v.validate s doc) (v.reports s doc) where
  perm := List.mergeSort_perm _ _
  inOrder := (List.pairwise_mergeSort isLE_compare_trans isLE_compare_total _).imp
    RuleError.isLE_compare_iff.mp

/-- Rules that ask for nothing reported report one after another what each reports alone. -/
theorem reports_of_readsOnly (h : ∀ r ∈ v, r.ReadsOnly) (s : Schema) (doc : Document) :
    v.reports s doc = v.flatMap fun r => r.check s doc [] := by
  -- the reports so far stand before those of the rules that are left
  have hfold : ∀ (v : Validator) (reported : List RuleError), (∀ r ∈ v, r.ReadsOnly) →
      v.foldl (fun reported rule => reported ++ rule.check s doc reported) reported =
        reported ++ v.flatMap fun r => r.check s doc [] := by
    intro v
    induction v with
    | nil => simp
    | cons r rest ih =>
      intro reported h
      obtain ⟨hr, hrest⟩ := List.forall_mem_cons.mp h
      rw [List.foldl_cons, ih _ hrest, hr s doc reported, List.flatMap_cons, List.append_assoc]
  exact hfold v [] h

theorem reports_perm (h : ∀ r ∈ v, r.ReadsOnly) (hw : w.Perm v) (s : Schema) (doc : Document) :
    (w.reports s doc).Perm (v.reports s doc) := by
  rw [reports_of_readsOnly h, reports_of_readsOnly fun r hr => h r (hw.mem_iff.mp hr)]
  exact hw.flatMap fun _ _ => .refl _

/-- Rules that do not ask what was reported before them find the same in a document in whatever
order they run: the reports of all of them, each as often as the rules make it, in order of place
and then of message. Only one list of the reports is in that order, so that it does not matter
either how they are sorted. -/
theorem validate_determined (h : ∀ r ∈ v, r.ReadsOnly) (s : Schema) (doc : Document) :
    (∀ w : Validator, w.Perm v → w.validate s doc = v.validate s doc) ∧
    (v.validate s doc).Pairwise RuleError.Precedes ∧
    (∀ e, (v.validate s doc).count e = (v.flatMap fun r => r.check s doc []).count e) ∧
    ∀ w : Validator, w.Perm v → ∀ arranged, RuleError.Arranges arranged (w.reports s doc) →
      arranged = v.validate s doc := by
  have harranges := arranges_validate v s doc
  have hunique : ∀ w : Validator, w.Perm v → ∀ arranged,
      RuleError.Arranges arranged (w.reports s doc) → arranged = v.validate s doc :=
    fun w hw arranged harranged => harranged.eq_of_perm harranges (reports_perm h hw s doc)
  refine ⟨fun w hw => hunique w hw _ (arranges_validate w s doc), harranges.inOrder, fun e => ?_,
    hunique⟩
  rw [harranges.perm.count_eq, reports_of_readsOnly h]

end Validator

namespace Unordered

def schema : Schema := ⟨[(lit "Query", .object ⟨lit "Query", none, [], []⟩)], lit "Query", none,
  none, [], none⟩

/-- The field is found wrong after the spread that follows it: another rule reports it. -/
def doc : Document :=
  match Document.ofText schema (lit "\x7bnope ...Missing nope\x7d") with
  | .ok doc => doc
  | .error _ => []

def nopeAt (index : Nat) : RuleError :=
  ⟨lit "Unknown field \"nope\" on type \"Query\"", [⟨index, 0, index⟩]⟩

def missing : RuleError := ⟨lit "Unknown fragment: \"Missing\"", [⟨9, 0, 9⟩]⟩

/-- The rules with the last two of them first. -/
def rotated : Validator := Rules.builtin.drop 2 ++ Rules.builtin.take 2

theorem rotated_perm : rotated.Perm Rules.builtin :=
  List.perm_append_comm.trans (.of_eq (List.take_append_drop 2 _))

theorem validate_rotated : (∀ r ∈ Rules.builtin, r.ReadsOnly) ∧ rotated.Perm Rules.builtin ∧
    Rules.builtin.reports schema doc = [missing, nopeAt 1, nopeAt 17] ∧
    rotated.reports schema doc = [nopeAt 1, nopeAt 17, missing] ∧
    Rules.builtin.validate schema doc = [nopeAt 1, missing, nopeAt 17] ∧
    rotated.validate schema doc = [nopeAt 1, missing, nopeAt 17] := by
  have hreports : Rules.builtin.reports schema doc = [missing, nopeAt 1, nopeAt 17] := by
    decide +kernel
  have hrotated : rotated.reports schema doc = [nopeAt 1, nopeAt 17, missing] := by
    decide +kernel
  obtain ⟨horder, -, -, hunique⟩ :=
    Validator.validate_determined Rules.builtin_readsOnly schema doc
  have hvalidate : [nopeAt 1, missing, nopeAt 17] = Rules.builtin.validate schema doc :=
    hunique _ (.refl _) _ ⟨by rw [hreports]; decide, by decide⟩
  exact ⟨Rules.builtin_readsOnly, rotated_perm, hreports, hrotated, hvalidate.symm,
    (horder _ rotated_perm).trans hvalidate.symm⟩

end Unordered

end GraphQL
