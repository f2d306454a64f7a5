import Mathlib.Data.List.Induction
import GraphQL.Proofs.Execution.Purity
import GraphQL.Proofs.Value.Merge

/-! The order of the keys of a response object. Tasks may run in any mode; what they give is merged
in the order of the document, so that each response name stands where it occurs first. -/

namespace GraphQL

section Occurrences

variable {names others : List Text}

theorem eraseDups_append_singleton (names : List Text) (k : Text) :
    (names ++ [k]).eraseDups = if k ∈ names then names.eraseDups else names.eraseDups ++ [k] := by
  have hsingle : [k].eraseDups = [k] := by simp [List.eraseDups_cons]
  by_cases h : k ∈ names <;> simp [List.eraseDups_append, List.removeAll, h, hsingle]

theorem nodup_eraseDups (names : List Text) : names.eraseDups.Nodup := by
  induction names using List.reverseRecOn with
  | nil => simp
  | append_singleton names k ih =>
    rw [eraseDups_append_singleton]
    by_cases h : k ∈ names
    · rwa [if_pos h]
    · rw [if_neg h]
      refine List.nodup_append.mpr ⟨ih, by simp, fun i hi j hj hij => h ?_⟩
      rw [← List.mem_singleton.mp hj, ← hij]
      exact List.mem_eraseDups.mp hi

/-- Occurrences that are dropped from a part are dropped from the whole anyway. -/
theorem eraseDups_append_eraseDups (names others : List Text) :
    (names ++ others.eraseDups).eraseDups = (names ++ others).eraseDups := by
  induction others using List.reverseRecOn with
  | nil => rfl
  | append_singleton others k ih =>
    rw [← List.append_assoc, eraseDups_append_singleton, eraseDups_append_singleton]
    by_cases h : k ∈ others
    · simp [h, ih]
    · rw [if_neg h, ← List.append_assoc, eraseDups_append_singleton, ih]
      simp [List.mem_append]

theorem Value.keys_mergeFields (source : Keyed Value) {target : Keyed Value}
    (h : target.keys = names.eraseDups) :
    (mergeFields source target).keys = (names ++ source.keys).eraseDups := by
  induction source generalizing target names with
  | nil => simpa [mergeFields, Keyed.keys] using h
  | cons entry source ih =>
    obtain ⟨k, v⟩ := entry
    have hk : (mergeKey target k v).keys = (names ++ [k]).eraseDups := by
      rw [keys_mergeKey, eraseDups_append_singleton, h]
      simp only [Keyed.contains_iff_mem_keys, h, List.mem_eraseDups]
    rw [mergeFields_cons, ih hk, List.append_assoc]
    rfl

end Occurrences

variable {σ : Type} {h : Subject.Handlers σ} {concurrent : Bool}

/-- All tasks of a plan give fields, one after the other, and these are merged into others. -/
inductive Plan.Merges (h : Subject.Handlers σ) (concurrent : Bool) :
    Plan → Effects σ → Keyed Value → Effects σ → Keyed Value → Prop where
  | done (s : Effects σ) (merged : Keyed Value) : Merges h concurrent .done s merged s merged
  | step {first : Step} {rest : Plan} {s t s' : Effects σ} {own merged fields : Keyed Value}
      (ran : (first.run h concurrent).run.run s = (.ok (some own), t))
      (hrest : Merges h concurrent rest t (Value.mergeFields own merged) s' fields) :
      Merges h concurrent (.step first rest) s merged s' fields

namespace Plan

theorem merges_of_runInTurn : ∀ (p : Plan) {s s' : Effects σ} {merged fields : Keyed Value},
    (p.tasks h concurrent).stop = none →
    (Tasks.runInTurn (p.tasks h concurrent).inOrder merged).run.run s = (.ok (some fields), s') →
      p.Merges h concurrent s merged s' fields
  | .done, s, s', merged, fields, _, hrun => by
    obtain ⟨hfields, rfl⟩ := Prod.mk.inj hrun
    obtain rfl := Option.some.inj (Except.ok.inj hfields)
    exact .done _ _
  | .stop v, _, _, _, _, hstop, _ => nomatch hstop
  | .step first rest, s, s', merged, fields, hstop, hrun => by
    rw [inOrder_step, Tasks.runInTurn] at hrun
    obtain ⟨_ | own, t, ran, hrun⟩ := exists_of_run_bind hrun
    · cases (Prod.mk.inj hrun).1
    · exact .step ran (merges_of_runInTurn rest hstop hrun)

theorem merges_of_merge : ∀ (p : Plan) {s : Effects σ} {merged fields : Keyed Value},
    (p.tasks h concurrent).stop = none →
    Tasks.merge (((p.tasks h concurrent).inOrder.mapM ExceptT.run).run s).1 merged =
        .ok (some fields) →
      p.Merges h concurrent s merged (((p.tasks h concurrent).inOrder.mapM ExceptT.run).run s).2
        fields
  | .done, s, merged, fields, _, hmerge => by
    obtain rfl := Option.some.inj (Except.ok.inj hmerge)
    exact .done _ _
  | .stop v, _, _, _, hstop, _ => nomatch hstop
  | .step first rest, s, merged, fields, hstop, hmerge => by
    rw [inOrder_step, Tasks.run_mapM_cons] at hmerge ⊢
    rcases hr : (first.run h concurrent).run.run s with ⟨v | _ | own, t⟩
    all_goals rw [hr] at hmerge
    · cases hmerge
    · cases hmerge
    · exact .step hr (merges_of_merge rest hstop hmerge)

/-- A plan that gives an object has merged what all its tasks give. -/
theorem merges_of_run {p : Plan} {s s' : Effects σ} {fields : Keyed Value}
    (hrun : ((p.tasks h concurrent).run concurrent).run.run s = (.ok (some fields), s')) :
    p.Merges h concurrent s [] s' fields := by
  cases concurrent with
  | true =>
    rw [Tasks.run, if_pos rfl, Tasks.run_runSideBySide] at hrun
    cases hstop : (p.tasks h true).stop with
    | some v => cases (Prod.mk.inj (hstop ▸ hrun)).1
    | none =>
      rw [hstop] at hrun
      obtain ⟨hmerge, rfl⟩ := Prod.mk.inj hrun
      exact merges_of_merge p hstop hmerge
  | false =>
    rw [Tasks.run, if_neg (by simp)] at hrun
    cases hstop : (p.tasks h false).stop with
    | some v => cases (Prod.mk.inj (hstop ▸ hrun)).1
    | none =>
      rw [hstop] at hrun
      exact merges_of_runInTurn p hstop hrun

theorem Merges.stop {p : Plan} {s s' : Effects σ} {merged fields : Keyed Value}
    (hmerges : p.Merges h concurrent s merged s' fields) : (p.tasks h concurrent).stop = none := by
  induction hmerges with
  | done => rfl
  | step _ _ ih => exact ih

theorem Merges.runInTurn {p : Plan} {s s' : Effects σ} {merged fields : Keyed Value}
    (hmerges : p.Merges h concurrent s merged s' fields) :
    (Tasks.runInTurn (p.tasks h concurrent).inOrder merged).run.run s =
      (.ok (some fields), s') := by
  induction hmerges with
  | done => rfl
  | @step first rest s t s' own merged fields ran _ ih =>
    rw [inOrder_step, Tasks.runInTurn, run_bind, ran]
    exact ih

theorem Merges.mapM {p : Plan} {s s' : Effects σ} {merged fields : Keyed Value}
    (hmerges : p.Merges h concurrent s merged s' fields) :
    Tasks.merge (((p.tasks h concurrent).inOrder.mapM ExceptT.run).run s).1 merged =
        .ok (some fields) ∧
      (((p.tasks h concurrent).inOrder.mapM ExceptT.run).run s).2 = s' := by
  induction hmerges with
  | done => exact ⟨rfl, rfl⟩
  | @step first rest s t s' own merged fields ran _ ih =>
    rw [inOrder_step, Tasks.run_mapM_cons, ran]
    exact ih

theorem Merges.run {p : Plan} {s s' : Effects σ} {fields : Keyed Value}
    (hmerges : p.Merges h concurrent s [] s' fields) :
    ((p.tasks h concurrent).run concurrent).run.run s = (.ok (some fields), s') := by
  cases concurrent with
  | true =>
    obtain ⟨hmerge, rfl⟩ := hmerges.mapM
    rw [Tasks.run, if_pos rfl, Tasks.run_runSideBySide, hmerges.stop]
    exact Prod.ext hmerge rfl
  | false =>
    rw [Tasks.run, if_neg (by simp), hmerges.stop]
    exact hmerges.runInTurn

end Plan

/-- The response names that selections on an object come to in a run from one state to another:
those of the fields that are not excluded, in order, with what fragments come to in their places
where these apply. An inline fragment with a condition comes to nothing if its own selections give
null. The depth is how many fragments may lie in one another. -/
inductive Names (h : Subject.Handlers σ) (subject : Subject) (concurrent : Bool) :
    (depth : Nat) → Cursor → SelectionSet → Effects σ → List Text → Effects σ → Prop where
  | nil (n : Nat) (c : Cursor) (s : Effects σ) : Names h subject concurrent n c [] s [] s
  | field {n : Nat} {c : Cursor} {head : FieldHead} {body : Option SelectionSet}
      {rest : SelectionSet} {s t s' : Effects σ} {step : Step} {own : Keyed Value}
      {names : List Text}
      (included : Directives.exclude c.scope.vars (head.directives.getD []) = .ok false)
      (planned : Plan.ofField subject c head body = .ok step)
      (ran : (step.run h concurrent).run.run s = (.ok (some own), t))
      (hrest : Names h subject concurrent n c rest t names s') :
      Names h subject concurrent n c (.field head body :: rest) s (head.responseName :: names) s'
  | excluded {n : Nat} {c : Cursor} {head : FieldHead} {body : Option SelectionSet}
      {rest : SelectionSet} {s s' : Effects σ} {names : List Text}
      (excluded : Directives.exclude c.scope.vars (head.directives.getD []) = .ok true)
      (hrest : Names h subject concurrent n c rest s names s') :
      Names h subject concurrent n c (.field head body :: rest) s names s'
  | spread {n : Nat} {c : Cursor} {sp : Spread} {f : Fragment} {rest : SelectionSet}
      {s t s' : Effects σ} {inner names : List Text}
      (put : c.scope.spreadOn subject.objectName sp = .ok (some f))
      (hinner : Names h subject concurrent n c f.selections s inner t)
      (hrest : Names h subject concurrent (n + 1) c rest t names s') :
      Names h subject concurrent (n + 1) c (.spread sp :: rest) s (inner ++ names) s'
  | spreadAside {n : Nat} {c : Cursor} {sp : Spread} {rest : SelectionSet} {s s' : Effects σ}
      {names : List Text} (aside : c.scope.spreadOn subject.objectName sp = .ok none)
      (hrest : Names h subject concurrent n c rest s names s') :
      Names h subject concurrent n c (.spread sp :: rest) s names s'
  | inline {n : Nat} {c : Cursor} {head : InlineHead} {body rest : SelectionSet}
      {s t s' : Effects σ} {inner names : List Text}
      (entered : c.scope.entersInline subject.objectName head = .ok true)
      (hinner : Names h subject concurrent n (c.atInline head.condition body) body s inner t)
      (hrest : Names h subject concurrent n c rest t names s') :
      Names h subject concurrent n c (.inline head body :: rest) s (inner ++ names) s'
  | nulled {n : Nat} {c : Cursor} {head : InlineHead} {condition : Located Text}
      {body rest : SelectionSet} {s t s' : Effects σ} {names : List Text}
      (typed : head.condition = some condition)
      (entered : c.scope.entersInline subject.objectName head = .ok true)
      (null : (((Plan.ofSelections subject (Plan.expandUpTo subject n)
        (c.atInline head.condition body) body).tasks h concurrent).run concurrent).run.run s =
          (.ok none, t))
      (hrest : Names h subject concurrent n c rest t names s') :
      Names h subject concurrent n c (.inline head body :: rest) s names s'
  | inlineAside {n : Nat} {c : Cursor} {head : InlineHead} {body rest : SelectionSet}
      {s s' : Effects σ} {names : List Text}
      (aside : c.scope.entersInline subject.objectName head = .ok false)
      (hrest : Names h subject concurrent n c rest s names s') :
      Names h subject concurrent n c (.inline head body :: rest) s names s'

section Reading

variable {subject : Subject}

/-- A field that does not null its object gives its response name a value. -/
theorem Plan.keys_of_ofField {c : Cursor} {head : FieldHead} {body : Option SelectionSet}
    {step : Step} {s t : Effects σ} {own : Keyed Value}
    (planned : ofField subject c head body = .ok step)
    (ran : (step.run h concurrent).run.run s = (.ok (some own), t)) :
    own.keys = [head.responseName] := by
  rcases ofField_cases_of_ok planned with ⟨-, rfl⟩ | ⟨declaration, below, -, -, rfl⟩
  · obtain rfl := Option.some.inj (Except.ok.inj (Prod.mk.inj ran).1)
    rfl
  · unfold Step.run at ran
    obtain ⟨o, t', -, ran⟩ := exists_of_run_bind ran
    dsimp only at ran
    split at ran
    · cases (Prod.mk.inj ran).1
    · obtain rfl := Option.some.inj (Except.ok.inj (Prod.mk.inj ran).1)
      rfl

/-- Without resolvers of its own for other types, an inline fragment gives what its plan gives. -/
theorem Step.run_ofInline_of_run (hinto : ∀ condition c, h.into condition c = none)
    {head : InlineHead} {inner : Cursor} {plan : Unit → Plan} {s t : Effects σ} {own : Keyed Value}
    (hrun : (((plan ()).tasks h concurrent).run concurrent).run.run s = (.ok (some own), t)) :
    ((Step.ofInline head inner plan).run h concurrent).run.run s = (.ok (some own), t) := by
  unfold Step.ofInline
  cases head.condition with
  | none => exact hrun
  | some condition =>
    simp only [Step.run, hinto]
    rw [run_bind, hrun]
    rfl

theorem Step.run_ofInline_of_null (hinto : ∀ condition c, h.into condition c = none)
    {head : InlineHead} {condition : Located Text} {inner : Cursor} {plan : Unit → Plan}
    {s t : Effects σ} (typed : head.condition = some condition)
    (hrun : (((plan ()).tasks h concurrent).run concurrent).run.run s = (.ok none, t)) :
    ((Step.ofInline head inner plan).run h concurrent).run.run s = (.ok (some []), t) := by
  unfold Step.ofInline
  rw [typed]
  simp only [Step.run, hinto]
  rw [run_bind, hrun]
  rfl

theorem Plan.ofSelection_field {expand : Plan.Expand} {c : Cursor} {head : FieldHead}
    {body : Option SelectionSet} {excluded : Bool}
    (hx : Directives.exclude c.scope.vars (head.directives.getD []) = .ok excluded) :
    ofSelection subject expand c (.field head body) =
      if excluded then .ok none else (ofField subject c head body).map some := by
  unfold ofSelection
  rw [hx]
  cases excluded with
  | true => rfl
  | false => cases ofField subject c head body <;> rfl

/-- Selections that come to no step come to no names. -/
theorem Names.skip {expand : Plan.Expand} {n : Nat} {c : Cursor} {x : Selection}
    {rest : SelectionSet} {s s' : Effects σ} {names : List Text}
    (hskip : Plan.ofSelection subject expand c x = .ok none)
    (hrest : Names h subject concurrent n c rest s names s') :
    Names h subject concurrent n c (x :: rest) s names s' := by
  cases x with
  | field head body =>
    cases hx : Directives.exclude c.scope.vars (head.directives.getD []) with
    | error v => simp [Plan.ofSelection, hx, bind, Except.bind] at hskip
    | ok excluded =>
      cases excluded with
      | true => exact .excluded hx hrest
      | false =>
        rw [Plan.ofSelection_field hx] at hskip
        cases hf : Plan.ofField subject c head body <;> simp [hf, Except.map] at hskip
  | spread sp =>
    rw [Plan.ofSelection_spread] at hskip
    rcases hput : c.scope.spreadOn subject.objectName sp with v | _ | f
    · simp [hput, Except.map] at hskip
    · exact .spreadAside hput hrest
    · simp [hput, Except.map] at hskip
  | inline head body =>
    rw [Plan.ofSelection_inline] at hskip
    rcases hentered : c.scope.entersInline subject.objectName head with v | _ | _
    · simp [hentered, Except.map] at hskip
    · exact .inlineAside hentered hrest
    · simp [hentered, Except.map] at hskip

/-- What fragments give has the names that they come to, with one fragment less in one another. -/
def Plan.NamesFragments (h : Subject.Handlers σ) (subject : Subject) (concurrent : Bool)
    (depth : Nat) : Prop :=
  ∀ c f (s t : Effects σ) (own : Keyed Value),
    (expandUpTo subject depth c f).Merges h concurrent s [] t own →
      ∃ less inner, depth = less + 1 ∧ Names h subject concurrent less c f.selections s inner t ∧
        own.keys = inner.eraseDups

mutual

/-- What a step gives has the names that its selection comes to. -/
theorem Plan.exists_names_ofSelection {n : Nat} (hinto : ∀ condition c, h.into condition c = none)
    (hexpand : NamesFragments h subject concurrent n) : ∀ (x : Selection) {c : Cursor} {step : Step}
    {s t : Effects σ} {own : Keyed Value},
    ofSelection subject (expandUpTo subject n) c x = .ok (some step) →
    (step.run h concurrent).run.run s = (.ok (some own), t) →
      ∃ inner, own.keys = inner.eraseDups ∧ ∀ rest names s',
        Names h subject concurrent n c rest t names s' →
          Names h subject concurrent n c (x :: rest) s (inner ++ names) s'
  | .field head body, c, first, s, t, own, hstep, ran => by
    obtain ⟨hx, planned⟩ := ofField_of_ofSelection hstep
    refine ⟨[head.responseName], ?_, fun rest names s' => .field hx planned ran⟩
    rw [keys_of_ofField planned ran]
    simp [List.eraseDups_cons]
  | .spread sp, c, first, s, t, own, hstep, ran => by
    obtain ⟨f, put, rfl⟩ := spreadOn_of_ofSelection hstep
    obtain ⟨m, inner, rfl, hinner, hkeys⟩ := hexpand c f s t own (merges_of_run ran)
    exact ⟨inner, hkeys, fun rest names s' => .spread put hinner⟩
  | .inline head body, c, first, s, t, own, hstep, ran => by
    obtain ⟨entered, rfl⟩ := entersInline_of_ofSelection hstep
    have hbody {own : Keyed Value} (hmerges : (ofSelections subject (expandUpTo subject n)
        (c.atInline head.condition body) body).Merges h concurrent s [] t own) :
        ∃ inner, own.keys = inner.eraseDups ∧ ∀ rest names s',
          Names h subject concurrent n c rest t names s' →
            Names h subject concurrent n c (.inline head body :: rest) s (inner ++ names) s' := by
      obtain ⟨inner, hinner, hkeys⟩ :=
        exists_names_ofSelections hinto hexpand body [] hmerges rfl
      exact ⟨inner, hkeys, fun rest names s' => .inline entered hinner⟩
    unfold Step.ofInline at ran
    cases hcond : head.condition with
    | none =>
      rw [hcond] at ran hbody
      exact hbody (merges_of_run ran)
    | some condition =>
      simp only [hcond, Step.run, hinto] at ran
      obtain ⟨outcome, t', hr, hgives⟩ := exists_of_run_bind ran
      obtain ⟨hown, rfl⟩ := Prod.mk.inj hgives
      obtain rfl := Option.some.inj (Except.ok.inj hown)
      rw [← hcond] at hr
      cases outcome with
      | none => exact ⟨[], rfl, fun rest names s' => .nulled hcond entered hr⟩
      | some own => exact hbody (merges_of_run hr)

theorem Plan.exists_names_ofSelections {n : Nat} (hinto : ∀ condition c, h.into condition c = none)
    (hexpand : NamesFragments h subject concurrent n) : ∀ (xs : List Selection)
    (before : List Text) {c : Cursor} {s s' : Effects σ} {merged fields : Keyed Value},
    (ofSelections subject (expandUpTo subject n) c xs).Merges h concurrent s merged s' fields →
    merged.keys = before.eraseDups →
      ∃ names, Names h subject concurrent n c xs s names s' ∧
        fields.keys = (before ++ names).eraseDups
  | [], before, _, _, _, _, _, hmerges, hbefore => by
    cases hmerges
    exact ⟨[], .nil _ _ _, by rwa [List.append_nil]⟩
  | x :: rest, before, c, s, s', merged, fields, hmerges, hbefore => by
    unfold ofSelections at hmerges
    rcases hx : ofSelection subject (expandUpTo subject n) c x with v | _ | first
    all_goals rw [hx] at hmerges
    · cases hmerges
    · obtain ⟨names, hnames, hkeys⟩ :=
        exists_names_ofSelections hinto hexpand rest _ hmerges hbefore
      exact ⟨names, hnames.skip hx, hkeys⟩
    · cases hmerges with
      | @step _ _ _ t _ own _ _ ran hrest =>
        obtain ⟨inner, hinner, hnames⟩ := exists_names_ofSelection hinto hexpand x hx ran
        have hmerged := Value.keys_mergeFields own hbefore
        rw [hinner, eraseDups_append_eraseDups] at hmerged
        obtain ⟨names, hothers, hkeys⟩ :=
          exists_names_ofSelections hinto hexpand rest _ hrest hmerged
        exact ⟨inner ++ names, hnames rest names s' hothers, by rwa [← List.append_assoc]⟩

end

theorem Plan.namesFragments (hinto : ∀ condition c, h.into condition c = none) (depth : Nat) :
    NamesFragments h subject concurrent depth := by
  induction depth with
  | zero => exact fun _ _ _ _ _ hmerges => nomatch hmerges
  | succ less ih =>
    intro c f s t own hmerges
    obtain ⟨inner, hinner, hkeys⟩ :=
      exists_names_ofSelections hinto ih f.selections [] hmerges rfl
    exact ⟨less, inner, rfl, hinner, hkeys⟩

/-- Where selections come to names, all tasks of their plan give fields. -/
theorem Names.exists_merges (hinto : ∀ condition c, h.into condition c = none) {n : Nat}
    {c : Cursor} {xs : SelectionSet} {s s' : Effects σ} {names : List Text}
    (hnames : Names h subject concurrent n c xs s names s') (merged : Keyed Value) :
    ∃ fields, (Plan.ofSelections subject (Plan.expandUpTo subject n) c xs).Merges h concurrent s
      merged s' fields := by
  induction hnames generalizing merged with
  | nil n c s => exact ⟨merged, .done s merged⟩
  | field included planned ran _ ih =>
    obtain ⟨fields, hrest⟩ := ih (Value.mergeFields _ merged)
    unfold Plan.ofSelections
    rw [Plan.ofSelection_field included, planned]
    exact ⟨fields, .step ran hrest⟩
  | excluded excluded _ ih =>
    unfold Plan.ofSelections
    rw [Plan.ofSelection_field excluded]
    exact ih merged
  | spread put _ _ ihinner ihrest =>
    obtain ⟨own, hinner⟩ := ihinner []
    obtain ⟨fields, hrest⟩ := ihrest (Value.mergeFields own merged)
    unfold Plan.ofSelections
    rw [Plan.ofSelection_spread, put]
    exact ⟨fields, .step hinner.run hrest⟩
  | spreadAside aside _ ih =>
    unfold Plan.ofSelections
    rw [Plan.ofSelection_spread, aside]
    exact ih merged
  | @inline n c head body rest s t s' inner names entered _ _ ihinner ihrest =>
    obtain ⟨own, hinner⟩ := ihinner []
    obtain ⟨fields, hrest⟩ := ihrest (Value.mergeFields own merged)
    unfold Plan.ofSelections
    rw [Plan.ofSelection_inline, entered]
    exact ⟨fields, .step (Step.run_ofInline_of_run hinto hinner.run) hrest⟩
  | @nulled n c head condition body rest s t s' names typed entered null _ ih =>
    obtain ⟨fields, hrest⟩ := ih (Value.mergeFields [] merged)
    unfold Plan.ofSelections
    rw [Plan.ofSelection_inline, entered]
    exact ⟨fields, .step (Step.run_ofInline_of_null hinto typed null) hrest⟩
  | inlineAside aside _ ih =>
    unfold Plan.ofSelections
    rw [Plan.ofSelection_inline, aside]
    exact ih merged

/-- Selections come to the same names in the same run. -/
theorem Names.unique (hinto : ∀ condition c, h.into condition c = none) {n : Nat} {c : Cursor}
    {xs : SelectionSet} {s t t' : Effects σ} {names names' : List Text}
    (hnames : Names h subject concurrent n c xs s names t)
    (hnames' : Names h subject concurrent n c xs s names' t') : names' = names ∧ t' = t := by
  -- an inline fragment does not give fields and null in one run
  have hclash {n c head body} {s t u : Effects σ} {inner : List Text}
      (hinner : Names h subject concurrent n (Cursor.atInline c head body) body s inner t)
      (null : (((Plan.ofSelections subject (Plan.expandUpTo subject n) (c.atInline head body)
        body).tasks h concurrent).run concurrent).run.run s = (.ok none, u)) : False := by
    obtain ⟨own, hmerges⟩ := hinner.exists_merges hinto []
    cases (Prod.mk.inj (hmerges.run.symm.trans null)).1
  induction hnames generalizing names' t' with
  | nil =>
    cases hnames'
    exact ⟨rfl, rfl⟩
  | field included planned ran _ ih =>
    cases hnames' with
    | field _ planned' ran' hrest =>
      obtain rfl := Except.ok.inj (planned.symm.trans planned')
      obtain ⟨-, rfl⟩ := Prod.mk.inj (ran.symm.trans ran')
      obtain ⟨rfl, rfl⟩ := ih hrest
      exact ⟨rfl, rfl⟩
    | excluded excluded => simp [included] at excluded
  | excluded excluded _ ih =>
    cases hnames' with
    | field included => simp [included] at excluded
    | excluded _ hrest => exact ih hrest
  | spread put _ _ ihinner ihrest =>
    cases hnames' with
    | spread put' hinner hrest =>
      obtain rfl := Option.some.inj (Except.ok.inj (put.symm.trans put'))
      obtain ⟨rfl, rfl⟩ := ihinner hinner
      obtain ⟨rfl, rfl⟩ := ihrest hrest
      exact ⟨rfl, rfl⟩
    | spreadAside aside => simp [put] at aside
  | spreadAside aside _ ih =>
    cases hnames' with
    | spread put => simp [put] at aside
    | spreadAside _ hrest => exact ih hrest
  | inline entered hinner _ ihinner ihrest =>
    cases hnames' with
    | inline _ hinner' hrest =>
      obtain ⟨rfl, rfl⟩ := ihinner hinner'
      obtain ⟨rfl, rfl⟩ := ihrest hrest
      exact ⟨rfl, rfl⟩
    | nulled _ _ null => exact (hclash hinner null).elim
    | inlineAside aside => simp [entered] at aside
  | nulled _ entered null _ ih =>
    cases hnames' with
    | inline _ hinner => exact (hclash hinner null).elim
    | nulled _ _ null' hrest =>
      obtain ⟨-, rfl⟩ := Prod.mk.inj (null.symm.trans null')
      exact ih hrest
    | inlineAside aside => simp [entered] at aside
  | inlineAside aside _ ih =>
    cases hnames' with
    | inline entered => simp [entered] at aside
    | nulled _ entered => simp [entered] at aside
    | inlineAside _ hrest => exact ih hrest

end Reading

/-- The keys of an object are the response names that the selections at a cursor come to in a run,
and to no others, each in the place where it occurs first. -/
def Cursor.Orders (c : Cursor) (h : Subject.Handlers σ) (s s' : Effects σ) (fields : Keyed Value) :
    Prop :=
  ∃ type selections names, c.scope.schema.type? h.typeName = some type ∧
    c.selections = some selections ∧
    (∀ others t, Names h ⟨type, h.objectName⟩ c.isConcurrent c.scope.fragments.length c selections s
      others t ↔ others = names ∧ t = s') ∧
    fields.keys = names.eraseDups

theorem Cursor.orders_of_resolveSelections (hinto : ∀ condition c, h.into condition c = none)
    {c : Cursor} {selections : SelectionSet} (hsel : c.selections = some selections)
    {s s' : Effects σ} {fields : Keyed Value}
    (hrun : (c.resolveSelections h selections).run.run s = (.ok (.object fields), s')) :
    c.Orders h s s' fields := by
  cases ht : c.scope.schema.type? h.typeName with
  | none =>
    unfold resolveSelections Schema.requireType at hrun
    rw [ht] at hrun
    cases (Prod.mk.inj hrun).1
  | some type =>
    rw [resolveSelections_of_type ht] at hrun
    obtain ⟨_ | own, t, hr, hrun⟩ := exists_of_run_bind hrun
    · cases (Prod.mk.inj hrun).1
    · obtain ⟨hown, rfl⟩ := Prod.mk.inj hrun
      obtain rfl : own = fields := Value.object.inj (Except.ok.inj hown)
      obtain ⟨names, hnames, hkeys⟩ := Plan.exists_names_ofSelections hinto
        (Plan.namesFragments hinto _) selections [] (Plan.merges_of_run hr) rfl
      refine ⟨type, selections, names, ht, hsel, fun others t' => ⟨hnames.unique hinto, ?_⟩, hkeys⟩
      rintro ⟨rfl, rfl⟩
      exact hnames

theorem Cursor.Orders.nodup {c : Cursor} {s s' : Effects σ} {fields : Keyed Value}
    (horders : c.Orders h s s' fields) : fields.keys.Nodup := by
  obtain ⟨_, _, names, _, _, _, hkeys⟩ := horders
  rw [hkeys]
  exact nodup_eraseDups names

theorem Node.orders_of_resolve {typeName objectName : Text}
    {field : Text → FieldArguments → Cursor → Action σ} {c : Cursor} {s s' : Effects σ}
    {fields : Keyed Value}
    (hrun : ((Node.mk typeName objectName field (fun _ => .none) .none).resolve c).run.run s =
      (.ok (.object fields), s')) :
    c.Orders (.ofFields typeName objectName field) s s' fields := by
  cases hsel : c.selections with
  | none =>
    simp only [Node.resolve, Override.run?, hsel] at hrun
    cases (Prod.mk.inj hrun).1
  | some selections =>
    rw [resolve_of_selections hsel] at hrun
    exact Cursor.orders_of_resolveSelections (fun _ _ => rfl) hsel (Run.run_of_toResolve hrun)

/-- The keys of an object, in turn and side by side: they are distinct, and each response name
stands where it occurs first in what the selections come to. With pure resolvers the same holds in
whatever order the tasks take their steps. -/
theorem Node.keys_areOrdered (typeName objectName : Text) (c : Cursor) :
    (∀ (field : Text → FieldArguments → Cursor → Action σ) (s s' : Effects σ)
      (fields : Keyed Value),
      ((Node.mk typeName objectName field (fun _ => .none) .none).resolve c).run.run s =
          (.ok (.object fields), s') →
        fields.keys.Nodup ∧ c.Orders (.ofFields typeName objectName field) s s' fields) ∧
    ∀ (answer : Text → FieldArguments → Answer) (errors : List ExecutionError)
      (fields : Keyed Value),
      ((Instance.mk typeName objectName answer (fun _ => .none) .none).process c).Runs
          c.scope.concurrent errors (.ok (.object fields)) →
        fields.keys.Nodup ∧ ∀ s : Effects Unit, ∃ s', c.Orders
          (.ofFields typeName objectName fun name arguments _ => (answer name arguments).toAction)
          s s' fields := by
  refine ⟨fun field s s' fields hrun => ?_, fun answer errors fields hruns => ?_⟩
  · have horders := orders_of_resolve hrun
    exact ⟨horders.nodup, horders⟩
  · obtain ⟨hresult, -⟩ := hruns.preserves
    have hfollows := Instance.follows (σ := Unit)
      (.mk typeName objectName answer (fun _ => .none) .none) c rfl
    unfold Process.Follows at hfollows
    rw [← hresult] at hfollows
    have horders (s : Effects Unit) := orders_of_resolve (hfollows s)
    exact ⟨(horders ⟨[], ()⟩).nodup, fun s => ⟨_, horders s⟩⟩

namespace Desk

def query : ObjectDef :=
  ⟨lit "Query", none, [⟨lit "a", none, none, .named (lit "Int") true, .current⟩,
    ⟨lit "b", none, none, .named (lit "Int") false, .current⟩,
    ⟨lit "c", none, none, .named (lit "Int") false, .current⟩], []⟩

def schema : Schema :=
  ⟨[(lit "Int", .scalar Scalars.int), (lit "Query", .object query)], lit "Query", none, none, [],
    none⟩

def others : Fragment :=
  ⟨.unlocated (lit "Others"), .unlocated (lit "Query"), none,
    [.ofName (lit "c") none, .ofName (lit "b") none], .unlocated⟩

/-- The inline fragment gives null, since its first field does. -/
def selections : SelectionSet :=
  [.ofName (lit "b") none,
    .inFragment (some (lit "Query")) [.ofName (lit "a") none, .ofName (lit "__typename") none],
    .spread ⟨.unlocated (lit "Others"), none, .unlocated⟩, .ofName (lit "b") none]

def cursor : Cursor :=
  .root ⟨schema, [others], [], none, true⟩ selections (.object query) .origin

/-- Every field gives how many fields have been resolved before it, but the first one is null. -/
def field (name : Text) (_ : FieldArguments) (_ : Cursor) : Action Nat :=
  .update (· + 1) fun n => .value (if name = lit "a" then .null else .scalar (.int (.ofNat n)))

def answer (name : Text) (_ : FieldArguments) : Answer :=
  .value (if name = lit "a" then .null else .scalar (.int 1))

theorem keys_areOrdered_desk :
    (∃ (fields : Keyed Value) (s' : Effects Nat),
      ((Node.mk (lit "Query") (lit "Query") field (fun _ => .none) .none).resolve
        cursor).run.run ⟨[], 0⟩ = (.ok (.object fields), s') ∧
      fields.keys = [lit "b", lit "c"] ∧ fields.keys.Nodup ∧
      cursor.Orders (.ofFields (lit "Query") (lit "Query") field) ⟨[], 0⟩ s' fields) ∧
    ∃ (errors : List ExecutionError) (fields : Keyed Value),
      ((Instance.mk (lit "Query") (lit "Query") answer (fun _ => .none) .none).process
        cursor).Runs true errors (.ok (.object fields)) ∧
      fields.keys = [lit "b", lit "c"] ∧ fields.keys.Nodup := by
  obtain ⟨fields, s', hrun, hkeys⟩ : ∃ (fields : Keyed Value) (s' : Effects Nat),
      ((Node.mk (lit "Query") (lit "Query") field (fun _ => .none) .none).resolve
        cursor).run.run ⟨[], 0⟩ = (.ok (.object fields), s') ∧
      fields.keys = [lit "b", lit "c"] := ⟨_, _, rfl, rfl⟩
  obtain ⟨fields', hresult, hkeys'⟩ : ∃ fields : Keyed Value,
      ((Instance.mk (lit "Query") (lit "Query") answer (fun _ => .none) .none).process
        cursor).result = .ok (.object fields) ∧ fields.keys = [lit "b", lit "c"] := ⟨_, rfl, rfl⟩
  have hruns :
      ((Instance.mk (lit "Query") (lit "Query") answer (fun _ => .none) .none).process
        cursor).Runs true _ _ := Process.runs_errors _
  rw [hresult] at hruns
  obtain ⟨hinTurn, hscheduled⟩ :=
    Node.keys_areOrdered (σ := Nat) (lit "Query") (lit "Query") cursor
  obtain ⟨hnodup, horders⟩ := hinTurn field ⟨[], 0⟩ s' fields hrun
  exact ⟨⟨fields, s', hrun, hkeys, hnodup, horders⟩,
    _, fields', hruns, hkeys', (hscheduled answer _ fields' hruns).1⟩

end Desk

end GraphQL
