import GraphQL.Proofs.Execution.Below
import GraphQL.Proofs.Execution.Driven

/-! Lists. The items of a list are resolved one after another, each at a place of its own. A missing
item and one that fails give null; where null is refused, the first null is the end of the list.
Items may be lists in turn: what holds of a list at any place holds of them at theirs. -/

namespace GraphQL

variable {σ : Type}

/-- A way of resolving what is selected on a value, from one state to an ending in another. -/
abbrev Resolution (σ : Type) := Node σ → Cursor → Effects σ → Ending → Effects σ → Prop

/-- What a list holds for an item, and the errors that were recorded for it. -/
structure ListItem where
  value : Value
  errors : List ExecutionError

namespace Resolution

/-- As execution does it. -/
def direct : Resolution σ := fun node c s r t => (node.resolve c).run.run s = (r, t)

/-- By any run of its job: tasks that run side by side take their steps in any order. -/
def scheduled : Resolution σ := fun node c s r t => ∃ ms, Job.Runs (node.job c) s ms r t

variable (R : Resolution σ) (c : Cursor)

/-- How the item of a list is resolved at its place. A missing one is null and leaves no trace; one
that fails is null, and its failure is recorded. A violation goes out. -/
inductive ItemEnds : Option (Node σ) → Effects σ → Except Violation Value → Effects σ → Prop where
  | missing (s : Effects σ) : ItemEnds none s (.ok .null) s
  | value {node : Node σ} {s t : Effects σ} {v : Value} (h : R node c s (.ok v) t) :
      ItemEnds (some node) s (.ok v) t
  | failure {node : Node σ} {s t : Effects σ} {e : FieldError}
      (h : R node c s (.error (.failure e)) t) :
      ItemEnds (some node) s (.ok .null) (t.record c c.location e)
  | violation {node : Node σ} {s t : Effects σ} {v : Violation}
      (h : R node c s (.error (.violation v)) t) : ItemEnds (some node) s (.error v) t

/-- Items of a list, from an index on, resolved to values one after another. The errors that are
recorded for an item lie at its place or below. -/
inductive Items :
    Nat → List (Option (Node σ)) → Effects σ → List ListItem → Effects σ → Prop where
  | nil (i : Nat) (s : Effects σ) : Items i [] s [] s
  | cons {i : Nat} {node : Option (Node σ)} {nodes : List (Option (Node σ))} {s t u : Effects σ}
      {x : ListItem} {xs : List ListItem} (item : R.ItemEnds (c.atIndex i) node s (.ok x.value) t)
      (errors : t.errors = s.errors ++ x.errors) (below : ∀ e ∈ x.errors, e.IsBelow (c.atIndex i))
      (rest : Items (i + 1) nodes t xs u) : Items i (node :: nodes) s (x :: xs) u

/-- What becomes of the items of a list from an index on. -/
inductive ListEnds (refusesNull : Bool) (i : Nat) (nodes : List (Option (Node σ)))
    (s : Effects σ) : Except Violation Value → Effects σ → Prop where
  /-- All items are resolved, and where null is refused, none is null. -/
  | complete {xs : List ListItem} {u : Effects σ} (items : R.Items c i nodes s xs u)
      (present : refusesNull = true → ∀ x ∈ xs, x.value.isNull = false) :
      ListEnds refusesNull i nodes s (.ok (.list (xs.map (·.value)))) u
  /-- Null is refused, and the items up to the first null are resolved, but none after it. -/
  | nulled (before : List ListItem) (last : ListItem) {u : Effects σ} (refuses : refusesNull = true)
      (items : R.Items c i (nodes.take (before.length + 1)) s (before ++ [last]) u)
      (present : ∀ x ∈ before, x.value.isNull = false) (null : last.value.isNull = true) :
      ListEnds refusesNull i nodes s (.ok .null) u
  /-- A violation goes out of the item after those that are resolved. -/
  | broken (before : List ListItem) {node : Option (Node σ)} {u w : Effects σ} {v : Violation}
      (items : R.Items c i (nodes.take before.length) s before u)
      (present : refusesNull = true → ∀ x ∈ before, x.value.isNull = false)
      (next : nodes[before.length]? = some node)
      (item : R.ItemEnds (c.atIndex (i + before.length)) node u (.error v) w)
      (below : u.Adds (ExecutionError.IsBelow (c.atIndex (i + before.length))) w) :
      ListEnds refusesNull i nodes s (.error v) w

end Resolution

open Resolution

section Parts

variable {R : Resolution σ} {c : Cursor} {refusesNull : Bool} {i : Nat} {node : Option (Node σ)}
  {nodes : List (Option (Node σ))} {s t u : Effects σ} {x : Except Violation Value}

namespace Resolution

theorem ItemEnds.of_missing (h : R.ItemEnds c none s x t) : x = .ok .null ∧ t = s := by
  cases h
  exact ⟨rfl, rfl⟩

theorem Items.length_eq {xs : List ListItem} (h : R.Items c i nodes s xs u) :
    xs.length = nodes.length := by
  induction h with
  | nil => rfl
  | cons _ _ _ _ ih => rw [List.length_cons, List.length_cons, ih]

/-- Each value is what the item at its index gives at its place. -/
theorem Items.ends {xs : List ListItem} (h : R.Items c i nodes s xs u) {k : Nat}
    {value : Value} (hnode : nodes[k]? = some node) (hvalue : (xs.map (·.value))[k]? = some value) :
    ∃ s' t', R.ItemEnds (c.atIndex (i + k)) node s' (.ok value) t' := by
  induction h generalizing k with
  | nil => cases hnode
  | @cons i _ _ s t _ x _ item _ _ _ ih =>
    cases k with
    | zero =>
      obtain rfl := Option.some.inj hnode
      obtain rfl := Option.some.inj hvalue
      exact ⟨s, t, item⟩
    | succ k =>
      have h := ih hnode hvalue
      rwa [Nat.add_right_comm] at h

/-- Errors come from items that are there, each at the place of its item or below. -/
theorem Items.adds {xs : List ListItem} (h : R.Items c i nodes s xs u) :
    s.Adds (fun e => ∃ k node, nodes[k]? = some (some node) ∧ e.IsBelow (c.atIndex (i + k))) u := by
  induction h with
  | nil => exact .refl _
  | @cons i node nodes s t u x xs item errors below rest ih =>
    have hrest : t.Adds (fun e => ∃ k n, (node :: nodes)[k]? = some (some n) ∧
        e.IsBelow (c.atIndex (i + k))) u := by
      refine ih.mono fun e ⟨k, n, hn, he⟩ => ⟨k + 1, n, by simpa using hn, ?_⟩
      rwa [Nat.add_right_comm i 1 k] at he
    cases node with
    | none =>
      obtain ⟨-, rfl⟩ := item.of_missing
      exact hrest
    | some n =>
      exact .trans ⟨x.errors, errors, fun e he => ⟨0, n, rfl, below e he⟩⟩ hrest

theorem ListEnds.adds (h : R.ListEnds c refusesNull i nodes s x u) :
    s.Adds (fun e => ∃ k node, nodes[k]? = some (some node) ∧ e.IsBelow (c.atIndex (i + k))) u := by
  have htake {k n : Nat} {node : Node σ} (hk : (nodes.take n)[k]? = some (some node)) :
      nodes[k]? = some (some node) := by
    rw [List.getElem?_take] at hk
    split at hk
    · exact hk
    · cases hk
  cases h with
  | complete items => exact items.adds
  | nulled _ _ _ items => exact items.adds.mono fun _ ⟨k, n, hn, he⟩ => ⟨k, n, htake hn, he⟩
  | broken before items _ next item below =>
    refine .trans (items.adds.mono fun _ ⟨k, n, hn, he⟩ => ⟨k, n, htake hn, he⟩) ?_
    cases item with
    | violation => exact below.mono fun e he => ⟨before.length, _, next, he⟩

/-- A list that is not broken off is one of all its items, or null where an item is null that must
not be. -/
theorem ListEnds.value_cases {v : Value} (h : R.ListEnds c refusesNull i nodes s (.ok v) u) :
    (∃ values, v = .list values ∧ values.length = nodes.length ∧
      (refusesNull = true → ∀ value ∈ values, value.isNull = false) ∧
      ∀ k node value, nodes[k]? = some node → values[k]? = some value →
        ∃ s' t', R.ItemEnds (c.atIndex (i + k)) node s' (.ok value) t') ∨
    refusesNull = true ∧ v = .null := by
  cases h with
  | @complete xs _ items present =>
    refine .inl ⟨_, rfl, by rw [List.length_map, items.length_eq], fun h => ?_,
      fun k node value hnode hvalue => items.ends hnode hvalue⟩
    exact List.forall_mem_map.mpr (present h)
  | nulled _ _ refuses => exact .inr ⟨refuses, rfl⟩

theorem ListEnds.nil (s : Effects σ) : R.ListEnds c refusesNull i [] s (.ok (.list [])) s :=
  .complete (.nil i s) fun _ => nofun

/-- Null ends a list that refuses it. -/
theorem ListEnds.null (refuses : refusesNull = true) {v : Value} (hv : v.isNull = true)
    (item : R.ItemEnds (c.atIndex i) node s (.ok v) t)
    (hadds : s.Adds (ExecutionError.IsBelow (c.atIndex i)) t) :
    R.ListEnds c refusesNull i (node :: nodes) s (.ok .null) t := by
  obtain ⟨errors, ht, hbelow⟩ := hadds
  exact .nulled [] ⟨v, errors⟩ refuses (.cons item ht hbelow (.nil _ t)) nofun hv

theorem ListEnds.break {v : Violation} (item : R.ItemEnds (c.atIndex i) node s (.error v) t)
    (hadds : s.Adds (ExecutionError.IsBelow (c.atIndex i)) t) :
    R.ListEnds c refusesNull i (node :: nodes) s (.error v) t :=
  .broken [] (.nil i s) (fun _ => nofun) rfl item hadds

/-- A value before the items that come after it. -/
theorem ListEnds.cons {v : Value} (present : refusesNull = true → v.isNull = false)
    (item : R.ItemEnds (c.atIndex i) node s (.ok v) t)
    (hadds : s.Adds (ExecutionError.IsBelow (c.atIndex i)) t)
    (rest : R.ListEnds c refusesNull (i + 1) nodes t x u) :
    R.ListEnds c refusesNull i (node :: nodes) s (x.map v.consItem) u := by
  obtain ⟨errors, ht, hbelow⟩ := hadds
  have hcons {nodes : List (Option (Node σ))} {xs : List ListItem} {u : Effects σ}
      (items : R.Items c (i + 1) nodes t xs u) :
      R.Items c i (node :: nodes) s (⟨v, errors⟩ :: xs) u := .cons item ht hbelow items
  cases rest with
  | complete items hpresent =>
    exact .complete (hcons items) fun h => List.forall_mem_cons.mpr ⟨present h, hpresent h⟩
  | nulled before last refuses items hpresent hnull =>
    exact .nulled (⟨v, errors⟩ :: before) last refuses (hcons items)
      (List.forall_mem_cons.mpr ⟨present refuses, hpresent⟩) hnull
  | broken before items hpresent hnext hitem hbroken =>
    have hindex : i + 1 + before.length = i + (before.length + 1) := Nat.add_right_comm i 1 _
    rw [hindex] at hitem hbroken
    exact .broken (⟨v, errors⟩ :: before) (hcons items)
      (fun h => List.forall_mem_cons.mpr ⟨present h, hpresent h⟩) (by simpa using hnext) hitem
      hbroken

theorem adds_of_scheduled {node : Node σ} {r : Ending} (h : scheduled node c s r t) :
    s.Adds (ExecutionError.IsBelow c) t := by
  obtain ⟨ms, hruns⟩ := h
  exact (Node.addsOnly_job node c).runs hruns

/-- What execution does is one of the runs. -/
theorem scheduled_of_direct {node : Node σ} {r : Ending} (h : direct node c s r t) :
    scheduled node c s r t := by
  obtain ⟨ms, hruns⟩ := Node.follows node c s
  rw [direct] at h
  rw [h] at hruns
  exact ⟨ms, hruns⟩

theorem ItemEnds.adds (hR : ∀ {node c s r t}, R node c s r t → scheduled node c s r t)
    (h : R.ItemEnds c node s x t) : s.Adds (ExecutionError.IsBelow c) t := by
  cases h with
  | missing => exact .refl s
  | value h => exact adds_of_scheduled (hR h)
  | failure h => exact (adds_of_scheduled (hR h)).trans (Effects.adds_record c c.location _ _)
  | violation h => exact adds_of_scheduled (hR h)

end Resolution

end Parts

section Direct

variable {c : Cursor}

theorem resolveItem_ends (node : Option (Node σ)) (c : Cursor) (s : Effects σ) :
    ∃ x t, direct.ItemEnds c node s x t ∧
      (resolveItem node c).run.run s = (x.mapError .violation, t) := by
  cases node with
  | none => exact ⟨.ok .null, s, .missing s, rfl⟩
  | some node =>
    unfold resolveItem
    rw [run_bind, Run.run_toResolve, Resolve.run_captured]
    rcases h : (node.resolve c).run.run s with ⟨(e | v) | v, t⟩
    · exact ⟨.ok .null, t.record c c.location e, .failure h, rfl⟩
    · exact ⟨.error v, t, .violation h, rfl⟩
    · exact ⟨.ok v, t, .value h, rfl⟩

theorem resolveItems_ends (stopOnNull : Bool) : ∀ (nodes : List (Option (Node σ))) (i : Nat)
    (s : Effects σ), ∃ x u, direct.ListEnds c stopOnNull i nodes s x u ∧
      (do return Value.ofItems? (← resolveItems stopOnNull nodes i c) : Resolve σ Value).run.run s =
        (x.mapError .violation, u)
  | [], _, s => ⟨.ok (.list []), s, .nil s, rfl⟩
  | node :: rest, i, s => by
    obtain ⟨x, t, hitem, hrun⟩ := resolveItem_ends node (c.atIndex i) s
    have hadds := hitem.adds scheduled_of_direct
    rw [resolveItems_cons, run_bind, hrun]
    cases x with
    | error v => exact ⟨.error v, t, .break hitem hadds, rfl⟩
    | ok v =>
      dsimp only [Except.mapError]
      by_cases hstop : (stopOnNull && v.isNull) = true
      · obtain ⟨hrefuses, hnull⟩ := Bool.and_eq_true_iff.mp hstop
        exact ⟨.ok .null, t, .null hrefuses hnull hitem hadds, by rw [if_pos hstop]; rfl⟩
      · obtain ⟨x, u, hrest, hrun⟩ := resolveItems_ends stopOnNull rest (i + 1) t
        refine ⟨_, u, hrest.cons (by simpa using hstop) hitem hadds, ?_⟩
        rw [if_neg hstop, run_bind, hrun]
        cases x <;> rfl

end Direct

section Scheduled

variable {c : Cursor}

theorem Job.ofItem_ends {node : Option (Node σ)} {s t : Effects σ} {ms : List Mark} {r : Ending}
    (h : Job.Runs (Job.ofItem node c) s ms r t) :
    ∃ x, r = x.mapError .violation ∧ scheduled.ItemEnds c node s x t := by
  cases node with
  | none =>
    unfold Job.ofItem at h
    obtain ⟨-, rfl, rfl⟩ := Job.runs_finish_iff.mp h
    exact ⟨.ok .null, rfl, .missing _⟩
  | some node =>
    unfold Job.ofItem at h
    obtain ⟨_, r₁, u, _, -, hnode, hend⟩ := h.of_andThen
    rcases r₁ with (e | v) | v
    · obtain ⟨-, rfl, rfl⟩ := Job.runs_finish_iff.mp (Job.runs_act_iff.mp hend)
      exact ⟨.ok .null, rfl, .failure ⟨_, hnode⟩⟩
    · obtain ⟨-, rfl, rfl⟩ := Job.runs_finish_iff.mp hend
      exact ⟨.error v, rfl, .violation ⟨_, hnode⟩⟩
    · obtain ⟨-, rfl, rfl⟩ := Job.runs_finish_iff.mp hend
      exact ⟨.ok v, rfl, .value ⟨_, hnode⟩⟩

theorem Job.ofItems_ends (stopOnNull : Bool) : ∀ (nodes : List (Option (Node σ))) (i : Nat)
    {s u : Effects σ} {ms : List Mark} {r : Ending},
    Job.Runs (Job.ofItems stopOnNull nodes i c) s ms r u →
      ∃ x, r = x.mapError .violation ∧ scheduled.ListEnds c stopOnNull i nodes s x u
  | [], _, s, u, ms, r, h => by
    unfold Job.ofItems at h
    obtain ⟨-, rfl, rfl⟩ := Job.runs_finish_iff.mp h
    exact ⟨.ok (.list []), rfl, .nil _⟩
  | node :: rest, i, s, u, ms, r, h => by
    unfold Job.ofItems at h
    obtain ⟨_, r₁, t, _, -, hnode, hrest⟩ := h.of_andThen
    obtain ⟨x, rfl, hitem⟩ := Job.ofItem_ends hnode
    have hadds := hitem.adds id
    rcases x with v | v
    · obtain ⟨-, rfl, rfl⟩ := Job.runs_finish_iff.mp hrest
      exact ⟨.error v, rfl, .break hitem hadds⟩
    dsimp only [Except.mapError] at hrest
    by_cases hstop : (stopOnNull && v.isNull) = true
    · rw [if_pos hstop] at hrest
      obtain ⟨-, rfl, rfl⟩ := Job.runs_finish_iff.mp hrest
      obtain ⟨hrefuses, hnull⟩ := Bool.and_eq_true_iff.mp hstop
      exact ⟨.ok .null, rfl, .null hrefuses hnull hitem hadds⟩
    · rw [if_neg hstop] at hrest
      obtain ⟨_, r₂, w, _, -, hitems, hend⟩ := hrest.of_andThen
      obtain ⟨x, rfl, hends⟩ := Job.ofItems_ends stopOnNull rest (i + 1) hitems
      have hcons := hends.cons (by simpa using hstop) hitem hadds
      rcases x with v' | items
      · obtain ⟨-, rfl, rfl⟩ := Job.runs_finish_iff.mp hend
        exact ⟨_, rfl, hcons⟩
      · obtain ⟨-, rfl, rfl⟩ := Job.runs_finish_iff.mp hend
        exact ⟨_, rfl, hcons⟩

end Scheduled

/-- Resolving a list, as execution does it and by every run of its job, of which that is one. The
items are resolved in turn at places of their own, on the type of the element. Unless a violation
goes out of one of them, the resolver goes on with the list of what they give, in which missing and
failing ones are null, or, where the element refuses null and one of them is null, with null and
without resolving those after it. Errors come from items that are there, and lie at the place of
their item or below. An item that is a list in turn is one at its own place. -/
theorem Action.resolveList_ends {c : Cursor} {element : TypePosition}
    (hlist : c.currentType.element? = some element) (nodes : List (Option (Node σ)))
    (next : Value → Action σ) (s : Effects σ) :
    (∀ i, (c.atIndex i).currentType = element ∧
      (c.atIndex i).path.segments = c.path.segments ++ [.index i]) ∧
    (∃ x u, direct.ListEnds c element.isNonNull 0 nodes s x u ∧
      ((resolveList nodes next).run c).run.run s = match x with
        | .ok v => ((next v).run c).run.run u
        | .error v => (.error (.violation v), u)) ∧
    (∃ ms, Job.Runs ((resolveList nodes next).job c) s ms
      (((resolveList nodes next).run c).run.run s).1
      (((resolveList nodes next).run c).run.run s).2) ∧
    (∀ ms r t, Job.Runs ((resolveList nodes next).job c) s ms r t →
      ∃ x u, scheduled.ListEnds c element.isNonNull 0 nodes s x u ∧ match x with
        | .ok v => ∃ ms', Job.Runs ((next v).job c) u ms' r t
        | .error v => r = .error (.violation v) ∧ t = u) ∧
    ∀ (R : Resolution σ) x u, R.ListEnds c element.isNonNull 0 nodes s x u →
      s.Adds (fun e => ∃ i node, nodes[i]? = some (some node) ∧
        c.path.segments ++ [.index i] <+: e.path) u ∧
      ∀ v, x = .ok v →
        (∃ values, v = .list values ∧ values.length = nodes.length ∧
          (element.isNonNull = true → ∀ value ∈ values, value.isNull = false) ∧
          ∀ i node value, nodes[i]? = some node → values[i]? = some value →
            ∃ s' t', R.ItemEnds (c.atIndex i) node s' (.ok value) t') ∨
        element.isNonNull = true ∧ v = .null := by
  refine ⟨fun i => ⟨by simp [Cursor.atIndex, hlist], rfl⟩, ?_, Action.follows _ c s,
    fun ms r t h => ?_, fun R x u h => ?_⟩
  · obtain ⟨x, u, hends, hrun⟩ := resolveItems_ends element.isNonNull nodes 0 s
    refine ⟨x, u, hends, ?_⟩
    rw [run_resolveList hlist, run_bind, hrun]
    cases x <;> rfl
  · unfold Action.job at h
    rw [hlist] at h
    obtain ⟨_, r₁, u, ms', -, hitems, hrest⟩ := h.of_andThen
    obtain ⟨x, rfl, hends⟩ := Job.ofItems_ends element.isNonNull nodes 0 hitems
    refine ⟨x, u, hends, ?_⟩
    cases x with
    | error v =>
      obtain ⟨-, rfl, rfl⟩ := Job.runs_finish_iff.mp hrest
      exact ⟨rfl, rfl⟩
    | ok v => exact ⟨ms', hrest⟩
  · refine ⟨h.adds.mono fun e ⟨i, node, hnode, he⟩ => ⟨i, node, hnode, ?_⟩, ?_⟩
    · rwa [Nat.zero_add] at he
    · rintro v rfl
      simpa only [Nat.zero_add] using h.value_cases

namespace Table

def cellType : TypePosition := .nonNull (.concrete (.object ⟨lit "Cell", none, [], []⟩))

/-- A list whose items refuse null. -/
def rowType : TypePosition := .list cellType none

/-- The place of a list of rows. -/
def grid : Cursor :=
  ⟨⟨⟨[], lit "Query", none, none, [], none⟩, [], [], none, false⟩, none,
    .nonNull (.list rowType none), (FieldPath.root .origin).field (lit "grid") .origin, none, false⟩

/-- A value that is resolved as a whole. -/
def cell (a : Action Unit) : Node Unit :=
  .mk (lit "Cell") (lit "Cell") (fun _ _ _ => .value .null) (fun _ => .none) (.custom fun _ => a)

def row (cells : List (Option (Node Unit))) : Node Unit := cell (.resolveList cells .value)

def one : Option (Node Unit) := some (cell (.value (.scalar (.int 1))))

def failing (message : Text) : Option (Node Unit) := some (cell (.fail (.ofText message)))

def lastCells : List (Option (Node Unit)) := [one, failing (lit "first"), failing (lit "second")]

def rows : List (Option (Node Unit)) := [some (row [one, one]), none, some (row lastCells)]

/-- The failure of the second cell in the third row. -/
def error : ExecutionError :=
  ⟨.origin, [.key (lit "grid"), .index 2, .index 1], .ofText (lit "first")⟩

theorem resolve_row {c : Cursor} {element : TypePosition}
    (hlist : c.currentType.element? = some element) (cells : List (Option (Node Unit))) :
    (row cells).resolve c =
      do return Value.ofItems? (← resolveItems element.isNonNull cells 0 c) := by
  have hrow : (row cells).resolve c = (Action.resolveList cells .value).run c := rfl
  rw [hrow, Action.run_resolveList hlist]
  exact bind_pure _

/-- What a list comes to if it is all that a resolver does. -/
theorem eq_of_run_value {c : Cursor} {x : Except Violation Value} {v : Value} {t u : Effects Unit}
    (h : (.ok v, t) = match x with
      | .ok v => ((Action.value v).run c).run.run u
      | .error v => (.error (.violation v), u)) : x = .ok v ∧ u = t := by
  cases x with
  | error w => cases h
  | ok w =>
    cases h
    exact ⟨rfl, rfl⟩

/-- A row that is nulled is an item of a list that is not; the cell after the null is left out. -/
theorem rows_end : grid.currentType.element? = some rowType ∧ rowType.isNonNull = false ∧
    direct.ListEnds grid false 0 rows ⟨[], ()⟩
      (.ok (.list [.list [.scalar (.int 1), .scalar (.int 1)], .null, .null])) ⟨[error], ()⟩ ∧
    (grid.atIndex 2).currentType.element? = some cellType ∧ cellType.isNonNull = true ∧
    direct.ListEnds (grid.atIndex 2) true 0 lastCells ⟨[], ()⟩ (.ok .null) ⟨[error], ()⟩ := by
  have hgrid : grid.currentType.element? = some rowType := rfl
  have hrow : ∀ i, (grid.atIndex i).currentType.element? = some cellType := fun _ => rfl
  have hrows : ((Action.resolveList rows .value).run grid).run.run ⟨[], ()⟩ =
      (.ok (.list [.list [.scalar (.int 1), .scalar (.int 1)], .null, .null]), ⟨[error], ()⟩) := by
    rw [Action.run_resolveList hgrid]
    simp only [rows, resolveItems, resolveItem, resolve_row (hrow _)]
    rfl
  have hcells : ((Action.resolveList lastCells .value).run (grid.atIndex 2)).run.run ⟨[], ()⟩ =
      (.ok .null, ⟨[error], ()⟩) := by
    rw [Action.run_resolveList (hrow 2)]
    rfl
  obtain ⟨-, ⟨x, u, hends, hrun⟩, -⟩ := Action.resolveList_ends hgrid rows .value ⟨[], ()⟩
  obtain ⟨-, ⟨x', u', hends', hrun'⟩, -⟩ :=
    Action.resolveList_ends (hrow 2) lastCells .value ⟨[], ()⟩
  obtain ⟨rfl, rfl⟩ := eq_of_run_value (hrows.symm.trans hrun)
  obtain ⟨rfl, rfl⟩ := eq_of_run_value (hcells.symm.trans hrun')
  exact ⟨hgrid, rfl, hends, hrow 2, rfl, hends'⟩

def brokenRows : List (Option (Node Unit)) :=
  [none, some (cell (.violate (.raised (lit "broken"))))]

/-- Where a violation goes out of an item, no list is given, although rows may be null. -/
theorem brokenRows_give_no_list : grid.currentType.element? = some rowType ∧
    rowType.isNonNull = false ∧
    ((Action.resolveList brokenRows .value).run grid).run.run ⟨[], ()⟩ =
      (.error (.violation (.raised (lit "broken"))), ⟨[], ()⟩) ∧
    ¬ ∃ values u, values.length = brokenRows.length ∧
      ((Action.resolveList brokenRows .value).run grid).run.run ⟨[], ()⟩ =
        (.ok (.list values), u) := by
  have hgrid : grid.currentType.element? = some rowType := rfl
  have hrun : ((Action.resolveList brokenRows .value).run grid).run.run ⟨[], ()⟩ =
      (.error (.violation (.raised (lit "broken"))), ⟨[], ()⟩) := by
    rw [Action.run_resolveList hgrid]
    rfl
  refine ⟨hgrid, rfl, hrun, ?_⟩
  rintro ⟨values, u, -, h⟩
  cases hrun.symm.trans h

end Table

end GraphQL
