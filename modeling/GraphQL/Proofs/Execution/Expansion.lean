import GraphQL.Execution.LookAhead
import GraphQL.Proofs.Execution.Plans
import GraphQL.Proofs.Validation.Nesting

/-! Going into fragments ends. In a document without circles look-ahead, the root fields of
subscriptions and the plans of selection sets never come to the bound that their definitions carry,
and end in a result or over something that selections refer to and that is not there. -/

namespace GraphQL

/-- Something that selections refer to is not there: the condition of a directive, a fragment, a
type or a field. -/
def Violation.IsMissing : Violation → Prop
  | conditionMissing _ | fragmentNotFound _ | typeNotFound _ | fieldNotFound _ _ => True
  | _ => False

section Missing

variable {scope : Scope} {objectName : Text}

theorem Directive.errs_excludes_missing (vars : Variables) (d : Directive) :
    Errs Violation.IsMissing (d.excludes vars) := by
  have hcond : Errs Violation.IsMissing (d.condition vars) := by
    unfold Directive.condition
    split
    · exact .ok _
    · exact .error trivial
  unfold Directive.excludes
  split_ifs
  · exact hcond
  · exact .map _ hcond
  · exact .ok _

theorem Directives.errs_exclude_missing (vars : Variables) (ds : Directives) :
    Errs Violation.IsMissing (exclude vars ds) := by
  induction ds with
  | nil => exact .ok _
  | cons d rest ih =>
    refine .bind (d.value.errs_excludes_missing vars) fun excluded _ => ?_
    cases excluded with
    | true => exact .ok _
    | false => exact ih

/-- A step that is only taken where directives do not take a selection out. -/
theorem Directives.errs_unless_excluded (vars : Variables) (ds : Directives) {α : Type} {x : α}
    {step : Except Violation α} (h : Errs Violation.IsMissing step) :
    Errs Violation.IsMissing (do if ← exclude vars ds then return x else step) := by
  refine .bind (errs_exclude_missing vars ds) fun excluded _ => ?_
  cases excluded with
  | true => exact .ok _
  | false => exact h

theorem Scope.errs_requireFragment (name : Text) :
    Errs Violation.IsMissing (scope.requireFragment name) := by
  unfold requireFragment
  split
  · exact .ok _
  · exact .error trivial

theorem Schema.errs_requireType (schema : Schema) (name : Text) :
    Errs Violation.IsMissing (schema.requireType name) := by
  unfold requireType
  split
  · exact .ok _
  · exact .error trivial

theorem Schema.errs_meetsCondition (schema : Schema) (condition objectName : Text) :
    Errs Violation.IsMissing (schema.meetsCondition condition objectName) := by
  unfold meetsCondition
  split_ifs
  · exact .ok _
  · refine .bind (schema.errs_requireType _) fun t _ => ?_
    exact .bind (schema.errs_requireType _) fun o _ => .ok _

theorem Schema.errs_position (schema : Schema) (t : TypeRef) :
    Errs Violation.IsMissing (schema.position t) := by
  induction t with
  | named name nonNull => exact .map _ (schema.errs_requireType name)
  | list element size nonNull ih => exact .map _ ih

theorem Scope.errs_spreadOn_missing (sp : Spread) :
    Errs Violation.IsMissing (scope.spreadOn objectName sp) := by
  unfold spreadOn
  refine Directives.errs_unless_excluded _ _ ?_
  refine .bind (errs_requireFragment _) fun f _ => ?_
  refine .bind (scope.schema.errs_meetsCondition _ _) fun applies _ => ?_
  cases applies <;> exact .ok _

theorem Scope.errs_entersInline_missing (head : InlineHead) :
    Errs Violation.IsMissing (scope.entersInline objectName head) := by
  unfold entersInline
  refine Directives.errs_unless_excluded _ _ ?_
  cases head.condition with
  | none => exact .ok _
  | some condition => exact scope.schema.errs_meetsCondition _ _

end Missing

open Traversal

namespace LookAhead

variable {scope : Scope} {expand expand' : Expand}

theorem expandUpTo_eq_upTo (scope : Scope) (n : Nat) :
    expandUpTo scope n = upTo (ofSelections scope) (expandUpTo scope 0) n := by
  induction n with
  | zero => rfl
  | succ n ih =>
    funext p f
    unfold expandUpTo upTo
    rw [ih]

mutual

theorem ofSelection_congr : ∀ (x : Selection),
    Agree scope (fun _ => True) expand expand' x.spreads →
      ∀ p, ofSelection scope expand p x = ofSelection scope expand' p x
  | .field _ none, _, _ => rfl
  | .field head (some body), h, p => by
    unfold ofSelection
    simp only [ofSelections_congr body h]
  | .spread sp, h, p => by
    unfold ofSelection
    refine bind_congr fun excluded => ?_
    cases hf : scope.requireFragment sp.name.value with
    | error v => rfl
    | ok f =>
      have hsame := fun q => h.at_spread hf (p := q) trivial
      simp only [bind, Except.bind, hsame]
  | .inline head body, h, p => by
    unfold ofSelection
    simp only [ofSelections_congr body h]

theorem ofSelections_congr : ∀ (xs : List Selection),
    Agree scope (fun _ => True) expand expand' (Selection.spreadsOf xs) →
      ∀ p, ofSelections scope expand p xs = ofSelections scope expand' p xs
  | [], _, _ => rfl
  | x :: rest, h, p => by
    obtain ⟨hx, hrest⟩ := Agree.append_iff.mp h
    unfold ofSelections
    rw [ofSelection_congr x hx p, ofSelections_congr rest hrest p]

end

theorem ends (hbound : ∀ xs chain, scope.Nested xs chain →
      chain.length ≤ scope.fragments.length) :
    Ends (ofSelections scope) (fun _ => True) scope.fragments.length (ofSelectionSet scope) := by
  have hlocal : IsLocal (ofSelections scope) scope fun _ => True :=
    fun _ _ xs h p _ => ofSelections_congr xs h p
  refine hlocal.ends hbound (expandUpTo scope 0) fun p xs _ => ?_
  unfold ofSelectionSet
  rw [expandUpTo_eq_upTo]

mutual

theorem errs_ofSelection_missing (hexpand : ∀ p f, Errs Violation.IsMissing (expand p f)) :
    ∀ (x : Selection) (p : Place), Errs Violation.IsMissing (ofSelection scope expand p x)
  | .field head none, p => by
    unfold ofSelection
    exact Directives.errs_unless_excluded _ _ (.ok _)
  | .field head (some body), p => by
    unfold ofSelection
    apply Directives.errs_unless_excluded
    exact .bind (errs_ofSelections_missing hexpand body _) fun _ _ => .ok _
  | .spread sp, p => by
    unfold ofSelection
    apply Directives.errs_unless_excluded
    exact .bind (Scope.errs_requireFragment _) fun f _ => hexpand _ f
  | .inline head body, p => by
    unfold ofSelection
    apply Directives.errs_unless_excluded
    cases head.condition <;> exact errs_ofSelections_missing hexpand body _

theorem errs_ofSelections_missing (hexpand : ∀ p f, Errs Violation.IsMissing (expand p f)) :
    ∀ (xs : List Selection) (p : Place), Errs Violation.IsMissing (ofSelections scope expand p xs)
  | [], _ => .ok _
  | x :: rest, p =>
    .bind (errs_ofSelection_missing hexpand x p) fun _ _ =>
      .bind (errs_ofSelections_missing hexpand rest p) fun _ _ => .ok _

end

end LookAhead

namespace RootField

variable {scope : Scope} {objectName : Text} {expand expand' : Expand}

/-- Collecting root fields, seen as a traversal that carries nothing along. -/
def traversal (scope : Scope) (objectName : Text) :
    Traversal Unit (Except Violation (List RootField)) :=
  fun expand _ xs => ofSelections scope objectName (expand ()) xs

theorem expandUpTo_eq_upTo (scope : Scope) (objectName : Text) (n : Nat) :
    expandUpTo scope objectName n =
      (traversal scope objectName).upTo (fun _ => expandUpTo scope objectName 0) n () := by
  induction n with
  | zero => rfl
  | succ n ih =>
    funext f
    unfold expandUpTo upTo
    rw [ih]
    rfl

mutual

theorem ofSelection_congr : ∀ (x : Selection),
    Agree scope (fun _ : Unit => True) (fun _ => expand) (fun _ => expand') x.spreads →
      ofSelection scope objectName expand x = ofSelection scope objectName expand' x
  | .field _ _, _ => rfl
  | .spread sp, h => by
    unfold ofSelection
    refine bind_congr fun excluded => ?_
    cases hf : scope.requireFragment sp.name.value with
    | error v => rfl
    | ok f =>
      have hsame : expand f = expand' f := h.at_spread hf (p := ()) trivial
      simp only [bind, Except.bind, hsame]
  | .inline head body, h => by
    unfold ofSelection
    simp only [ofSelections_congr body h]

theorem ofSelections_congr : ∀ (xs : List Selection),
    Agree scope (fun _ : Unit => True) (fun _ => expand) (fun _ => expand')
        (Selection.spreadsOf xs) →
      ofSelections scope objectName expand xs = ofSelections scope objectName expand' xs
  | [], _ => rfl
  | x :: rest, h => by
    obtain ⟨hx, hrest⟩ := Agree.append_iff.mp h
    unfold ofSelections
    rw [ofSelection_congr x hx, ofSelections_congr rest hrest]

end

theorem ends (hbound : ∀ xs chain, scope.Nested xs chain →
      chain.length ≤ scope.fragments.length) :
    Ends (traversal scope objectName) (fun _ => True) scope.fragments.length
      (fun _ => ofSelectionSet scope objectName) := by
  have hlocal : (traversal scope objectName).IsLocal scope fun _ => True :=
    fun _ _ xs h _ _ => ofSelections_congr xs h
  refine hlocal.ends hbound (fun _ => expandUpTo scope objectName 0) fun _ xs _ => ?_
  unfold ofSelectionSet
  rw [expandUpTo_eq_upTo]
  rfl

mutual

theorem errs_ofSelection_missing (hexpand : ∀ f, Errs Violation.IsMissing (expand f)) :
    ∀ x : Selection, Errs Violation.IsMissing (ofSelection scope objectName expand x)
  | .field head body => by
    unfold ofSelection
    exact Directives.errs_unless_excluded _ _ (.ok _)
  | .spread sp => by
    unfold ofSelection
    apply Directives.errs_unless_excluded
    refine .bind (Scope.errs_requireFragment _) fun f _ => ?_
    refine .bind (scope.schema.errs_meetsCondition _ _) fun applies _ => ?_
    cases applies with
    | true => exact hexpand f
    | false => exact .ok _
  | .inline head body => by
    unfold ofSelection
    apply Directives.errs_unless_excluded
    cases head.condition with
    | none => exact errs_ofSelections_missing hexpand body
    | some condition =>
      refine .bind (scope.schema.errs_meetsCondition _ _) fun applies _ => ?_
      cases applies with
      | true => exact errs_ofSelections_missing hexpand body
      | false => exact .ok _

theorem errs_ofSelections_missing (hexpand : ∀ f, Errs Violation.IsMissing (expand f)) :
    ∀ xs : List Selection, Errs Violation.IsMissing (ofSelections scope objectName expand xs)
  | [] => .ok _
  | x :: rest =>
    .bind (errs_ofSelection_missing hexpand x) fun _ _ =>
      .bind (errs_ofSelections_missing hexpand rest) fun _ _ => .ok _

end

end RootField

namespace Plan

variable {scope : Scope} {subject : Subject} {expand expand' : Expand}

/-- Wherever a plan or a fragment in it stops, something is missing. -/
abbrev StopsAtMissing : Plan → Prop := All (fun _ => True) (fun _ => True) Violation.IsMissing

theorem expandUpTo_eq_upTo (subject : Subject) (n : Nat) :
    expandUpTo subject n = upTo (ofSelections subject) (expandUpTo subject 0) n := by
  induction n with
  | zero => rfl
  | succ n ih =>
    funext c f
    unfold expandUpTo upTo
    rw [ih]

mutual

theorem ofSelection_congr : ∀ (x : Selection),
    Agree scope (fun c : Cursor => c.scope = scope) expand expand' x.spreads →
      ∀ c, c.scope = scope → ofSelection subject expand c x = ofSelection subject expand' c x
  | .field _ _, _, _, _ => rfl
  | .spread sp, h, c, hc => by
    rw [ofSelection_spread, ofSelection_spread, hc]
    cases hx : scope.spreadOn subject.objectName sp with
    | error v => rfl
    | ok put =>
      cases put with
      | none => rfl
      | some f =>
        have hf := (Scope.spreadOn_iff.mp hx).2.1
        have hsame := h.at_spread hf hc
        simp only [Except.map, Option.map, hsame]
  | .inline head body, h, c, hc => by
    have hsame := ofSelections_congr body h (c.atInline head.condition body) hc
    rw [ofSelection_inline, ofSelection_inline, hsame]

theorem ofSelections_congr : ∀ (xs : List Selection),
    Agree scope (fun c : Cursor => c.scope = scope) expand expand' (Selection.spreadsOf xs) →
      ∀ c, c.scope = scope → ofSelections subject expand c xs = ofSelections subject expand' c xs
  | [], _, _, _ => rfl
  | x :: rest, h, c, hc => by
    obtain ⟨hx, hrest⟩ := Agree.append_iff.mp h
    unfold ofSelections
    rw [ofSelection_congr x hx c hc, ofSelections_congr rest hrest c hc]

end

theorem ends (hbound : ∀ xs chain, scope.Nested xs chain →
      chain.length ≤ scope.fragments.length) :
    Ends (ofSelections subject) (fun c => c.scope = scope) scope.fragments.length
      (ofSelectionSet subject) := by
  have hlocal : IsLocal (ofSelections subject) scope fun c => c.scope = scope :=
    fun _ _ xs h c hc => ofSelections_congr xs h c hc
  refine hlocal.ends hbound (expandUpTo subject 0) fun c xs hc => ?_
  unfold ofSelectionSet
  rw [hc, expandUpTo_eq_upTo]

theorem errs_ofField_missing (c : Cursor) (head : FieldHead) (body : Option SelectionSet) :
    Errs Violation.IsMissing (ofField subject c head body) := by
  unfold ofField
  split_ifs
  · exact .ok _
  · cases subject.type.field? head.name.value with
    | none => exact .error trivial
    | some declaration =>
      have hcursor : Errs Violation.IsMissing (c.atField ⟨head, declaration⟩ body) :=
        .bind (c.scope.schema.errs_position _) fun _ _ => .ok _
      exact .bind hcursor fun _ _ => .ok _

theorem ofField_all {c : Cursor} {head : FieldHead} {body : Option SelectionSet} {s : Step}
    (h : ofField subject c head body = .ok s) (stop : Violation → Prop) :
    s.All (fun _ => True) (fun _ => True) stop := by
  rcases ofField_cases_of_ok h with ⟨-, rfl⟩ | ⟨_, _, -, -, rfl⟩
  · exact trivial
  · exact trivial

theorem errs_ofSelection_missing (x : Selection) (c : Cursor) :
    Errs Violation.IsMissing (ofSelection subject expand c x) := by
  cases x with
  | field head body =>
    unfold ofSelection
    apply Directives.errs_unless_excluded
    exact .bind (errs_ofField_missing c head body) fun _ _ => .ok _
  | spread sp =>
    rw [ofSelection_spread]
    exact .map _ (Scope.errs_spreadOn_missing sp)
  | inline head body =>
    rw [ofSelection_inline]
    exact .map _ (Scope.errs_entersInline_missing head)

mutual

theorem stopsAtMissing_ofSelection (hexpand : ∀ c f, (expand c f).StopsAtMissing) :
    ∀ (x : Selection) (c : Cursor) (s : Step), ofSelection subject expand c x = .ok (some s) →
      s.All (fun _ => True) (fun _ => True) Violation.IsMissing
  | .field _ _, _, _, hs => ofField_all (ofField_of_ofSelection hs).2 _
  | .spread sp, c, s, hs => by
    obtain ⟨f, -, rfl⟩ := spreadOn_of_ofSelection hs
    exact hexpand c f
  | .inline head body, c, s, hs => by
    obtain ⟨-, rfl⟩ := entersInline_of_ofSelection hs
    have hbody := stopsAtMissing_ofSelections hexpand body (c.atInline head.condition body)
    exact Step.all_ofInline hbody fun _ _ => trivial

theorem stopsAtMissing_ofSelections (hexpand : ∀ c f, (expand c f).StopsAtMissing) :
    ∀ (xs : List Selection) (c : Cursor), (ofSelections subject expand c xs).StopsAtMissing
  | [], _ => trivial
  | x :: rest, c => by
    have hstep := stopsAtMissing_ofSelection hexpand x c
    have hrest := stopsAtMissing_ofSelections hexpand rest c
    unfold ofSelections
    rcases hx : ofSelection subject expand c x with v | _ | s
    · exact errs_ofSelection_missing x c v hx
    · exact hrest
    · exact ⟨hstep s hx, hrest⟩

end

end Plan

/-- In a document without circles no fragment lies in itself, so no more fragments lie in one
another than the document defines. Look-ahead from every place, collecting the fields of every root
and planning at every cursor come to an end by themselves: every bound from the number of fragments
on gives what going on without a bound gives, and that is a result unless something is missing. -/
theorem Document.expansions_end {schema : Schema} {doc : Document} {reported : List RuleError}
    (hcycles : Rules.noFragmentCycles.check schema doc reported = []) {scope : Scope}
    (hscope : scope.fragments = doc.fragments) :
    (∀ xs chain, scope.Nested xs chain →
      (chain.map (·.name.value)).Nodup ∧ chain.length ≤ doc.fragments.length) ∧
    (Ends (LookAhead.ofSelections scope) (fun _ => True) doc.fragments.length
        (LookAhead.ofSelectionSet scope) ∧
      ∀ p xs, Errs Violation.IsMissing (LookAhead.ofSelectionSet scope p xs)) ∧
    (∀ objectName, Ends (RootField.traversal scope objectName) (fun _ => True)
        doc.fragments.length (fun _ => RootField.ofSelectionSet scope objectName) ∧
      ∀ xs, Errs Violation.IsMissing (RootField.ofSelectionSet scope objectName xs)) ∧
    ∀ subject, Ends (Plan.ofSelections subject) (fun c => c.scope = scope) doc.fragments.length
        (Plan.ofSelectionSet subject) ∧
      ∀ c xs, c.scope = scope → (Plan.ofSelectionSet subject c xs).StopsAtMissing := by
  have hcirc (name : Text) : ¬ Relation.TransGen (Fragment.Leads scope.fragments) name name := by
    rw [hscope, ← Fragment.leads_eq]
    exact Cycles.not_transGen_of_search hcycles name
  have hbound (xs : SelectionSet) (chain : List Fragment) (h : scope.Nested xs chain) :
      chain.length ≤ scope.fragments.length := h.length_le hcirc
  rw [← hscope]
  refine ⟨fun xs chain h => ⟨h.nodup_names hcirc, hbound xs chain h⟩, ?_, ?_, ?_⟩
  · have hends := LookAhead.ends hbound
    have herrs := hends.carries (fun _ _ => .ok []) (fun _ _ => Errs.ok [])
      fun _ h p xs => LookAhead.errs_ofSelections_missing h xs p
    exact ⟨hends, fun p xs => herrs p xs trivial⟩
  · intro objectName
    have hends : Ends (RootField.traversal scope objectName) (fun _ => True) _ _ :=
      RootField.ends hbound
    have herrs := hends.carries (fun _ _ => .ok []) (fun _ _ => Errs.ok [])
      fun _ h _ xs => RootField.errs_ofSelections_missing (h ()) xs
    exact ⟨hends, fun xs => herrs () xs trivial⟩
  · intro subject
    have hends : Ends (Plan.ofSelections subject) (fun c => c.scope = scope) _ _ :=
      Plan.ends hbound
    have hstops (c : Cursor) (xs : SelectionSet) (hc : c.scope = scope) :
        (Plan.ofSelectionSet subject c xs).StopsAtMissing :=
      hends.carries (P := Plan.StopsAtMissing) (fun _ _ => .done) (fun _ _ => trivial)
        (fun _ h c xs => Plan.stopsAtMissing_ofSelections h xs c) c xs hc
    exact ⟨hends, hstops⟩

namespace Chained

def inner : Fragment :=
  ⟨.unlocated (lit "Inner"), .unlocated (lit "Query"), none, [.ofName (lit "b") none], .unlocated⟩

/-- A fragment that spreads another one below a field. -/
def outer : Fragment :=
  ⟨.unlocated (lit "Outer"), .unlocated (lit "Query"), none,
    [.ofName (lit "a") (some [.spread ⟨.unlocated (lit "Inner"), none, .unlocated⟩])], .unlocated⟩

def selections : SelectionSet := [.spread ⟨.unlocated (lit "Outer"), none, .unlocated⟩]

def document : Document :=
  [.operation ⟨.query, none, none, none, selections, .unlocated⟩, .fragment outer, .fragment inner]

def scope : Scope := ⟨⟨[], lit "Query", none, none, [], none⟩, [outer, inner], [], none, false⟩

theorem expansions_end_selections :
    Rules.noFragmentCycles.check scope.schema document [] = [] ∧
      scope.fragments = document.fragments ∧ scope.Nested selections [outer, inner] ∧
        (∀ xs chain, scope.Nested xs chain → chain.length ≤ 2) ∧
          ∀ n, 2 ≤ n → LookAhead.ofSelections scope (LookAhead.expandUpTo scope n)
              ⟨none, none⟩ selections =
            .ok [⟨lit "a", none, [], none, [⟨lit "b", none, [], none, []⟩]⟩] := by
  have hcycles : Rules.noFragmentCycles.check scope.schema document [] = [] := rfl
  have hscope : scope.fragments = document.fragments := rfl
  obtain ⟨hchains, ⟨hlook, -⟩, -⟩ := Document.expansions_end hcycles hscope
  have hinner : scope.Nested outer.selections [inner] :=
    .cons List.mem_cons_self rfl (.nil _)
  refine ⟨hcycles, hscope, .cons List.mem_cons_self rfl hinner, fun xs chain h =>
    (hchains xs chain h).2, fun n hn => ?_⟩
  rw [LookAhead.expandUpTo_eq_upTo, hlook.bounded n hn _ _ _ trivial]
  rfl

end Chained

end GraphQL
