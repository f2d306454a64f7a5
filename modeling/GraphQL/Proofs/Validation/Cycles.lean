import Mathlib.Data.List.Perm.Subperm
import Mathlib.Logic.Relation
import GraphQL.Proofs.Keyed
import GraphQL.Validation.Rules

/-! Circles of fragments. The search reports one exactly when there is one, and each report stands
at a spread that leads back to the fragment it stands in. -/

namespace GraphQL

open Relation

/-- A selection holds the spreads that stand in it, at any depth. -/
inductive Selection.Holds : Selection → Spread → Prop where
  | spread (sp : Spread) : Holds (.spread sp) sp
  | field {head : FieldHead} {body : List Selection} {s : Selection} {sp : Spread} :
    s ∈ body → Holds s sp → Holds (.field head (some body)) sp
  | inline {head : InlineHead} {body : List Selection} {s : Selection} {sp : Spread} :
    s ∈ body → Holds s sp → Holds (.inline head body) sp

/-- A spread that stands in a fragment of this name. -/
def Fragment.Spreads (fragments : List Fragment) (name : Text) (sp : Spread) : Prop :=
  ∃ f ∈ fragments, f.name.value = name ∧ ∃ s ∈ f.selections, s.Holds sp

/-- The fragments of the first name spread the second. -/
def Fragment.Leads (fragments : List Fragment) (a b : Text) : Prop :=
  ∃ sp, Spreads fragments a sp ∧ sp.name.value = b

namespace Selection

mutual

theorem mem_spreads_iff {sp : Spread} : ∀ s : Selection, sp ∈ s.spreads ↔ s.Holds sp
  | .field _ none => by
    refine ⟨fun h => ?_, fun h => nomatch h⟩
    simp [spreads] at h
  | .field _ (some body) => by
    rw [spreads, mem_spreadsOf_iff body]
    exact ⟨fun ⟨_, hs, h⟩ => .field hs h, fun | .field hs h => ⟨_, hs, h⟩⟩
  | .spread sp' => by
    rw [spreads, List.mem_singleton]
    exact ⟨fun h => h ▸ .spread sp', fun | .spread _ => rfl⟩
  | .inline _ body => by
    rw [spreads, mem_spreadsOf_iff body]
    exact ⟨fun ⟨_, hs, h⟩ => .inline hs h, fun | .inline hs h => ⟨_, hs, h⟩⟩

theorem mem_spreadsOf_iff {sp : Spread} :
    ∀ body : List Selection, sp ∈ spreadsOf body ↔ ∃ s ∈ body, s.Holds sp
  | [] => by simp [spreadsOf]
  | s :: rest => by
    rw [spreadsOf, List.mem_append, mem_spreads_iff s, mem_spreadsOf_iff rest]
    simp

end

end Selection

theorem Fragment.mem_spreadsFrom_iff {fragments : List Fragment} {name : Text} {sp : Spread} :
    sp ∈ spreadsFrom fragments name ↔ Spreads fragments name sp := by
  simp only [spreadsFrom, List.mem_flatMap, List.mem_filter, beq_iff_eq,
    Selection.mem_spreadsOf_iff, Spreads]
  exact ⟨fun ⟨f, ⟨hf, hn⟩, h⟩ => ⟨f, hf, hn, h⟩, fun ⟨f, hf, hn, h⟩ => ⟨f, ⟨hf, hn⟩, h⟩⟩

namespace Cycles

variable {spreads : Text → List Spread}

/-- A spread of the first name is of the second. -/
def Leads (spreads : Text → List Spread) (a b : Text) : Prop :=
  ∃ sp ∈ spreads a, sp.name.value = b

/-- What a search may report: a spread from which spreads lead back to where it stands. -/
def Reports (spreads : Text → List Spread) (e : RuleError) : Prop :=
  ∃ name, ∃ sp ∈ spreads name, ReflTransGen (Leads spreads) sp.name.value name ∧
    e = ⟨lit "Cannot spread fragment \"" ++ name ++ lit "\"", [sp.span.start]⟩

/-- Every spread on the trail stands where it was left and leads to the name under way. -/
def Followed (spreads : Text → List Spread) (trail : Keyed Spread) (name : Text) : Prop :=
  ∀ entry ∈ trail, entry.2 ∈ spreads entry.1 ∧
    ReflTransGen (Leads spreads) entry.2.name.value name

theorem Followed.next {trail : Keyed Spread} {name : Text} {sp : Spread}
    (h : Followed spreads trail name) (hsp : sp ∈ spreads name) :
    Followed spreads ((name, sp) :: trail) sp.name.value := by
  intro entry hentry
  rcases List.mem_cons.mp hentry with rfl | hentry
  · exact ⟨hsp, .refl⟩
  · obtain ⟨hmem, hlead⟩ := h entry hentry
    exact ⟨hmem, hlead.tail ⟨sp, hsp, rfl⟩⟩

/-- The search after one spread of a fragment that it has entered. -/
def follow (spreads : Text → List Spread) (fuel : Nat) (trail : Keyed Spread) (name : Text)
    (st : Search) (sp : Spread) : Search :=
  match Keyed.get? ((name, sp) :: trail) sp.name.value with
  | some leftBy => st.report sp.name.value leftBy
  | none =>
    if st.visited.contains sp.name.value then st
    else enter spreads fuel ((name, sp) :: trail) sp.name.value st

theorem enter_succ (fuel : Nat) (trail : Keyed Spread) (name : Text) (st : Search) :
    enter spreads (fuel + 1) trail name st =
      (spreads name).foldl (follow spreads fuel trail name) (st.visit name) := rfl

theorem reports_enter (fuel : Nat) :
    ∀ (trail : Keyed Spread) (name : Text) (st : Search), Followed spreads trail name →
      (∀ e ∈ st.found, Reports spreads e) →
      ∀ e ∈ (enter spreads fuel trail name st).found, Reports spreads e := by
  induction fuel with
  | zero => exact fun _ _ _ _ h => h
  | succ fuel ih =>
    intro trail name st htrail hst
    rw [enter_succ]
    refine List.foldlRecOn (motive := fun st : Search => ∀ e ∈ st.found, Reports spreads e)
      (spreads name) _ hst fun st hst sp hsp => ?_
    have hnext := htrail.next hsp
    unfold follow
    split
    · rename_i leftBy hget
      obtain ⟨hmem, hlead⟩ := hnext _ (Keyed.mem_of_get? hget)
      intro e he
      rcases List.mem_append.mp he with he | he
      · exact hst e he
      · rw [List.mem_singleton] at he
        exact ⟨_, leftBy, hmem, hlead, he⟩
    · split_ifs
      · exact hst
      · exact ih _ _ _ hnext hst

/-- A later state of a search knows what an earlier one knew. -/
structure Extends (st st' : Search) : Prop where
  visited : st.visited ⊆ st'.visited
  found : st'.found = [] → st.found = []

theorem Extends.refl (st : Search) : Extends st st := ⟨fun _ h => h, id⟩

theorem Extends.trans {st st' st'' : Search} (h : Extends st st') (h' : Extends st' st'') :
    Extends st st'' :=
  ⟨fun _ ha => h'.visited (h.visited ha), fun hf => h.found (h'.found hf)⟩

theorem Extends.foldl {α : Type} {f : Search → α → Search} (hf : ∀ st a, Extends st (f st a))
    (as : List α) (st : Search) : Extends st (as.foldl f st) :=
  List.foldlRecOn (motive := Extends st) as f (.refl st) fun st' h a _ => h.trans (hf st' a)

/-- What each step keeps and achieves without a report, all steps together keep and achieve. -/
theorem Extends.foldl_of_step {α : Type} (Keeps : Search → Prop) (Achieves : Search → α → Prop)
    {f : Search → α → Search} (hf : ∀ st a, Extends st (f st a))
    (hmono : ∀ {st st' a}, Achieves st a → Extends st st' → Achieves st' a) (as : List α)
    (hstep : ∀ st, ∀ a ∈ as, Keeps st → (f st a).found = [] →
      Keeps (f st a) ∧ Achieves (f st a) a) :
    ∀ st, Keeps st → (as.foldl f st).found = [] →
      Keeps (as.foldl f st) ∧ ∀ a ∈ as, Achieves (as.foldl f st) a := by
  induction as with
  | nil => exact fun st h _ => ⟨h, fun a ha => nomatch ha⟩
  | cons a as ih =>
    intro st h hfound
    rw [List.foldl_cons] at hfound ⊢
    have hrest := Extends.foldl hf as (f st a)
    obtain ⟨h, ha⟩ := hstep st a List.mem_cons_self h (hrest.found hfound)
    obtain ⟨h, hall⟩ := ih (fun st b hb => hstep st b (List.mem_cons_of_mem _ hb)) _ h hfound
    exact ⟨h, List.forall_mem_cons.mpr ⟨hmono ha hrest, hall⟩⟩

theorem Extends.follow {fuel : Nat}
    (h : ∀ trail name st, Extends st (enter spreads fuel trail name st)) (trail : Keyed Spread)
    (name : Text) (st : Search) (sp : Spread) :
    Extends st (follow spreads fuel trail name st sp) := by
  unfold Cycles.follow
  split
  · exact ⟨fun _ ha => ha, fun hf => (List.append_eq_nil_iff.mp hf).1⟩
  · split_ifs
    · exact .refl st
    · exact h _ _ _

theorem extends_enter (fuel : Nat) : ∀ (trail : Keyed Spread) (name : Text) (st : Search),
    Extends st (enter spreads fuel trail name st) := by
  induction fuel with
  | zero => exact fun _ _ st => .refl st
  | succ fuel ih =>
    intro trail name st
    have hvisit : Extends st (st.visit name) := ⟨List.subset_cons_self _ _, id⟩
    rw [enter_succ]
    exact hvisit.trans (.foldl (.follow ih trail name) _ _)

theorem extends_follow (spreads : Text → List Spread) (fuel : Nat) (trail : Keyed Spread)
    (name : Text) (st : Search) (sp : Spread) :
    Extends st (follow spreads fuel trail name st sp) :=
  .follow (extends_enter fuel) trail name st sp

/-- A name is done when the search has come to it and is not under way from it. -/
def Done (under : List Text) (st : Search) (a : Text) : Prop := a ∈ st.visited ∧ a ∉ under

theorem Done.mono {under : List Text} {st st' : Search} {a : Text} (h : Done under st a)
    (hext : Extends st st') : Done under st' a := ⟨hext.visited h.1, h.2⟩

/-- What is done leads only to what is done, and not back to itself. -/
def Clear (spreads : Text → List Spread) (under : List Text) (st : Search) : Prop :=
  ∀ a, Done under st a →
    (∀ b, Leads spreads a b → Done under st b) ∧ ¬ TransGen (Leads spreads) a a

theorem Clear.done_of_transGen {under : List Text} {st : Search} (h : Clear spreads under st)
    {a b : Text} (ha : Done under st a) (hab : TransGen (Leads spreads) a b) :
    Done under st b := by
  induction hab with
  | single hab => exact (h a ha).1 _ hab
  | tail _ hbc ih => exact (h _ ih).1 _ hbc

theorem Clear.visit {under : List Text} {st : Search} {name : Text}
    (h : Clear spreads under st) (hname : name ∉ st.visited) :
    Clear spreads (name :: under) (st.visit name) := by
  have hback (a : Text) (ha : Done (name :: under) (st.visit name) a) : Done under st a := by
    obtain ⟨hne, hu⟩ := not_or.mp (fun hu => ha.2 (List.mem_cons.mpr hu))
    exact ⟨(List.mem_cons.mp ha.1).resolve_left hne, hu⟩
  intro a ha
  obtain ⟨hlead, hcirc⟩ := h a (hback a ha)
  refine ⟨fun b hab => ?_, hcirc⟩
  obtain ⟨hv, hu⟩ := hlead b hab
  have hne : b ≠ name := fun he => hname (he ▸ hv)
  exact ⟨List.mem_cons_of_mem _ hv, List.not_mem_cons_of_ne_of_not_mem hne hu⟩

/-- When all that a name leads to is done, so is the name: nothing done leads back to it. -/
theorem Clear.leave {under : List Text} {st : Search} {name : Text}
    (h : Clear spreads (name :: under) st)
    (hname : ∀ b, Leads spreads name b → Done (name :: under) st b) : Clear spreads under st := by
  have hout (b : Text) (hb : Done (name :: under) st b) : Done under st b :=
    ⟨hb.1, fun hu => hb.2 (List.mem_cons_of_mem _ hu)⟩
  intro a ha
  by_cases he : a = name
  · subst he
    refine ⟨fun b hab => hout b (hname b hab), fun hcirc => ?_⟩
    obtain ⟨b, hab, hba⟩ := TransGen.head'_iff.mp hcirc
    have hdone : Done (a :: under) st a := by
      rcases reflTransGen_iff_eq_or_transGen.mp hba with rfl | hba
      · exact hname _ hab
      · exact h.done_of_transGen (hname b hab) hba
    exact hdone.2 List.mem_cons_self
  · obtain ⟨hlead, hcirc⟩ := h a ⟨ha.1, List.not_mem_cons_of_ne_of_not_mem he ha.2⟩
    exact ⟨fun b hab => hout b (hlead b hab), hcirc⟩

/-- What holds where a fragment is entered: the fragments under way are known, distinct and
defined, and the fuel lasts for those that are not. -/
structure Ready (names : List Text) (fuel : Nat) (trail : Keyed Spread) (st : Search) : Prop where
  nodup : trail.keys.Nodup
  known : ∀ a ∈ trail.keys, a ∈ st.visited
  defined : ∀ a ∈ trail.keys, a ∈ names
  fuel : names.length + 1 ≤ fuel + trail.length

theorem Ready.next {names : List Text} {fuel : Nat} {trail : Keyed Spread} {st st' : Search}
    {name : Text} (h : Ready names (fuel + 1) trail st) (hname : name ∉ st.visited)
    (hdef : name ∈ names) (hext : Extends (st.visit name) st') (sp : Spread) :
    Ready names fuel ((name, sp) :: trail) st' where
  nodup := List.nodup_cons.mpr ⟨fun hk => hname (h.known _ hk), h.nodup⟩
  known a ha := hext.visited <| (List.mem_cons.mp ha).elim (fun he => he ▸ List.mem_cons_self)
    fun ha => List.mem_cons_of_mem _ (h.known a ha)
  defined a ha := (List.mem_cons.mp ha).elim (fun he => he ▸ hdef) (h.defined a)
  fuel := by
    have := h.fuel
    simp only [List.length_cons]
    omega

theorem Ready.fuel_pos {names : List Text} {fuel : Nat} {trail : Keyed Spread} {st : Search}
    (h : Ready names fuel trail st) : 0 < fuel := by
  have hlen : trail.keys.length ≤ names.length :=
    (List.subperm_of_subset h.nodup h.defined).length_le
  have hkeys : trail.keys.length = trail.length := List.length_map _
  have := h.fuel
  omega

/-- What entering a fragment comes to if nothing is reported: what was clear stays so, and the
fragment is done with. -/
def Settles (spreads : Text → List Spread) (trail : Keyed Spread) (name : Text)
    (st' : Search) : Prop :=
  st'.found = [] → Clear spreads trail.keys st' ∧ name ∈ st'.visited

section Settle

variable {names : List Text} {fuel : Nat} {trail : Keyed Spread} {name : Text} {st : Search}

theorem clear_follow {sp : Spread}
    (henter : ∀ trail name st, Ready names fuel trail st → name ∉ st.visited →
      Clear spreads trail.keys st → Settles spreads trail name (enter spreads fuel trail name st))
    (hready : Ready names fuel ((name, sp) :: trail) st)
    (hclear : Clear spreads (name :: trail.keys) st)
    (hfound : (follow spreads fuel trail name st sp).found = []) :
    Clear spreads (name :: trail.keys) (follow spreads fuel trail name st sp) ∧
      Done (name :: trail.keys) (follow spreads fuel trail name st sp) sp.name.value := by
  cases hget : Keyed.get? ((name, sp) :: trail) sp.name.value with
  | some leftBy =>
    simp only [follow, hget] at hfound
    exact absurd (List.append_eq_nil_iff.mp hfound).2 (List.cons_ne_nil _ _)
  | none =>
    have hnot : sp.name.value ∉ Keyed.keys ((name, sp) :: trail) :=
      Keyed.not_contains_iff.mp (by simp [Keyed.contains, hget])
    simp only [follow, hget] at hfound ⊢
    split_ifs at hfound ⊢ with hv
    · exact ⟨hclear, List.contains_iff_mem.mp hv, hnot⟩
    · have hv : sp.name.value ∉ st.visited := fun h => hv (List.contains_iff_mem.mpr h)
      obtain ⟨h, hmem⟩ := henter _ _ _ hready hv hclear hfound
      exact ⟨h, hmem, hnot⟩

end Settle

/-- The fuel lasts, and the search leaves a fragment only when all that it leads to is done. -/
theorem settles_enter {names : List Text} (hdef : ∀ a b, Leads spreads a b → a ∈ names)
    (fuel : Nat) : ∀ (trail : Keyed Spread) (name : Text) (st : Search),
      Ready names fuel trail st → name ∉ st.visited → Clear spreads trail.keys st →
      Settles spreads trail name (enter spreads fuel trail name st) := by
  induction fuel with
  | zero => exact fun _ _ _ hready => absurd hready.fuel_pos (Nat.lt_irrefl 0)
  | succ fuel ih =>
    intro trail name st hready hname hclear hfound
    rw [enter_succ] at hfound ⊢
    have hmem := (Extends.foldl (extends_follow spreads fuel trail name) (spreads name)
      (st.visit name)).visited List.mem_cons_self
    obtain ⟨⟨-, h⟩, hall⟩ := Extends.foldl_of_step
      (fun st' => Extends (st.visit name) st' ∧ Clear spreads (name :: trail.keys) st')
      (fun st' sp => Done (name :: trail.keys) st' sp.name.value)
      (extends_follow spreads fuel trail name) Done.mono (spreads name)
      (fun st' sp hsp ⟨hext, hclear⟩ hfound => by
        have hready := hready.next hname (hdef name _ ⟨sp, hsp, rfl⟩) hext sp
        obtain ⟨hclear, hdone⟩ := clear_follow ih hready hclear hfound
        exact ⟨⟨hext.trans (extends_follow spreads fuel trail name st' sp), hclear⟩, hdone⟩)
      _ ⟨.refl _, hclear.visit hname⟩ hfound
    exact ⟨h.leave fun b ⟨sp, hsp, hb⟩ => hb ▸ hall sp hsp, hmem⟩

/-- The search after one fragment of a document. -/
def begin (spreads : Text → List Spread) (fuel : Nat) (st : Search) (f : Fragment) : Search :=
  if st.visited.contains f.name.value then st else enter spreads fuel [] f.name.value st

theorem search_eq (fragments : List Fragment) : search fragments =
    fragments.foldl (begin (Fragment.spreadsFrom fragments) (fragments.length + 1)) ⟨[], []⟩ := rfl

theorem extends_begin (spreads : Text → List Spread) (fuel : Nat) (st : Search) (f : Fragment) :
    Extends st (begin spreads fuel st f) := by
  unfold begin
  split_ifs
  · exact .refl st
  · exact extends_enter _ _ _ _

/-- What the search reports lies on a circle. -/
theorem reports_search (fragments : List Fragment) :
    ∀ e ∈ (search fragments).found, Reports (Fragment.spreadsFrom fragments) e := by
  rw [search_eq]
  refine List.foldlRecOn (motive := fun st : Search => ∀ e ∈ st.found, Reports _ e) fragments _
    (fun e he => nomatch he) fun st hst f _ => ?_
  unfold begin
  split_ifs
  · exact hst
  · exact reports_enter _ _ _ _ (fun entry h => nomatch h) hst

/-- Where the search reports nothing, no fragment leads back to itself. -/
theorem not_transGen_of_search {fragments : List Fragment} (h : (search fragments).found = [])
    (name : Text) : ¬ TransGen (Leads (Fragment.spreadsFrom fragments)) name name := by
  have hdef (a b : Text) (hab : Leads (Fragment.spreadsFrom fragments) a b) :
      a ∈ fragments.map (·.name.value) := by
    obtain ⟨sp, hsp, -⟩ := hab
    obtain ⟨f, hf, hn, -⟩ := Fragment.mem_spreadsFrom_iff.mp hsp
    exact List.mem_map.mpr ⟨f, hf, hn⟩
  rw [search_eq] at h
  obtain ⟨hclear, hall⟩ := Extends.foldl_of_step
    (Clear (Fragment.spreadsFrom fragments) []) (fun st f => Done [] st f.name.value)
    (extends_begin _ _) Done.mono fragments
    (fun st f _ hclear hfound => by
      unfold begin at hfound ⊢
      split_ifs at hfound ⊢ with hv
      · exact ⟨hclear, List.contains_iff_mem.mp hv, List.not_mem_nil⟩
      · have hv : f.name.value ∉ st.visited := fun h => hv (List.contains_iff_mem.mpr h)
        have hready : Ready (fragments.map (·.name.value)) (fragments.length + 1) [] st :=
          ⟨List.nodup_nil, by simp [Keyed.keys], by simp [Keyed.keys], by simp⟩
        obtain ⟨hclear, hmem⟩ := settles_enter hdef _ _ _ _ hready hv hclear hfound
        exact ⟨hclear, hmem, List.not_mem_nil⟩)
    _ (fun a ha => absurd ha.1 List.not_mem_nil) h
  intro hcirc
  obtain ⟨b, hab, -⟩ := TransGen.head'_iff.mp hcirc
  obtain ⟨f, hf, hn⟩ := List.mem_map.mp (hdef name b hab)
  exact (hclear name (hn ▸ hall f hf)).2 hcirc

end Cycles

namespace Rules

/-- The rule reports something exactly when a fragment leads back to itself. Each report names such
a fragment and stands at a spread in it that leads back. -/
theorem noFragmentCycles_exact (s : Schema) (doc : Document) (reported : List RuleError) :
    (noFragmentCycles.check s doc reported ≠ [] ↔
      ∃ name, TransGen (Fragment.Leads doc.fragments) name name) ∧
    ∀ e ∈ noFragmentCycles.check s doc reported, ∃ name sp,
      e = ⟨lit "Cannot spread fragment \"" ++ name ++ lit "\"", [sp.span.start]⟩ ∧
        Fragment.Spreads doc.fragments name sp ∧
        ReflTransGen (Fragment.Leads doc.fragments) sp.name.value name := by
  have hleads : Cycles.Leads (Fragment.spreadsFrom doc.fragments) =
      Fragment.Leads doc.fragments := by
    funext a b
    simp only [Cycles.Leads, Fragment.Leads, Fragment.mem_spreadsFrom_iff]
  have hreports : ∀ e ∈ noFragmentCycles.check s doc reported, ∃ name sp,
      e = ⟨lit "Cannot spread fragment \"" ++ name ++ lit "\"", [sp.span.start]⟩ ∧
        Fragment.Spreads doc.fragments name sp ∧
        ReflTransGen (Fragment.Leads doc.fragments) sp.name.value name := by
    intro e he
    obtain ⟨name, sp, hsp, hlead, rfl⟩ := Cycles.reports_search doc.fragments e he
    exact ⟨name, sp, rfl, Fragment.mem_spreadsFrom_iff.mp hsp, hleads ▸ hlead⟩
  refine ⟨⟨fun h => ?_, fun ⟨name, hcirc⟩ h => ?_⟩, hreports⟩
  · obtain ⟨e, he⟩ := List.exists_mem_of_ne_nil _ h
    obtain ⟨name, sp, -, hsp, hlead⟩ := hreports e he
    exact ⟨name, TransGen.head' ⟨sp, hsp, rfl⟩ hlead⟩
  · exact Cycles.not_transGen_of_search h name (hleads ▸ hcirc)

end Rules

end GraphQL
