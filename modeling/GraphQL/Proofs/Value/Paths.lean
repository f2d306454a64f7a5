import GraphQL.Execution.Error
import GraphQL.Proofs.Value.Merge

/-! What stands at the paths of a merged value. Nothing that is there already changes. Of what is
put in, all is there that merging comes to: it does not look into a list that is an item of a list,
so that what such lists hold is lost. -/

namespace GraphQL

/-- A path that merging follows: it does not lead from an item of a list to an item of that item. -/
def ResponsePath.IsFollowed : ResponsePath → Prop
  | [] => True
  | .key _ :: rest => IsFollowed rest
  | .index _ :: rest => (∀ j, rest.head? ≠ some (.index j)) ∧ IsFollowed rest

namespace Value

/-- A value as clients tell its shape: a leaf, a list of so many items, or an object. -/
inductive Form where
  | leaf
  | list (length : Nat)
  | object
deriving DecidableEq

def form : Value → Form
  | null => .leaf
  | scalar _ => .leaf
  | list items => .list items.length
  | object _ => .object

/-- The field under a key or the item at an index. -/
def child? : PathSegment → Value → Option Value
  | .key k, object fields => Keyed.get? fields k
  | .index i, list items => items[i]?
  | _, _ => none

/-- What stands at a path of a value. -/
def at? : ResponsePath → Value → Option Value
  | [], v => some v
  | segment :: rest, v => (child? segment v).bind (at? rest)

/-- Two values have the same form wherever both of them have something. -/
def Agrees (x y : Value) : Prop :=
  ∀ path a b, at? path x = some a → at? path y = some b → a.form = b.form

/-- A value after something is merged into it: a leaf is the same, and a list has as many items. -/
structure Extends (y x : Value) : Prop where
  form : y.form = x.form
  leaf : x.form = .leaf → y = x

/-- A merge of two values that loses nothing: every path of one of them is there, with the leaf that
the first one has there or else with that of the second. -/
structure Keeps (merged x y : Value) : Prop where
  path : ∀ path, (at? path x).isSome ∨ (at? path y).isSome → (at? path merged).isSome
  first : ∀ path a, at? path x = some a → a.form = .leaf → at? path merged = some a
  second : ∀ path b, at? path x = none → at? path y = some b → b.form = .leaf →
    at? path merged = some b

mutual

/-- The keys of every object in a value are distinct. -/
def IsDistinct : Value → Prop
  | null => True
  | scalar _ => True
  | list items => AreDistinct items
  | object fields => (Keyed.keys fields).Nodup ∧ FieldsAreDistinct fields

def AreDistinct : List Value → Prop
  | [] => True
  | v :: rest => v.IsDistinct ∧ AreDistinct rest

def FieldsAreDistinct : List (Text × Value) → Prop
  | [] => True
  | (_, v) :: rest => v.IsDistinct ∧ FieldsAreDistinct rest

end

theorem areDistinct_iff {items : List Value} :
    AreDistinct items ↔ ∀ v ∈ items, v.IsDistinct := by
  induction items with
  | nil => simp [AreDistinct]
  | cons v rest ih => simp [AreDistinct, ih]

theorem fieldsAreDistinct_iff {fields : List (Text × Value)} :
    FieldsAreDistinct fields ↔ ∀ k v, (k, v) ∈ fields → v.IsDistinct := by
  induction fields with
  | nil => simp [FieldsAreDistinct]
  | cons entry rest ih =>
    obtain ⟨k, v⟩ := entry
    refine (and_congr_right fun _ => ih).trans ⟨fun ⟨hv, hrest⟩ j w hm => ?_, fun h => ?_⟩
    · rcases List.mem_cons.mp hm with he | hm
      · obtain ⟨rfl, rfl⟩ := Prod.mk.inj he
        exact hv
      · exact hrest j w hm
    · exact ⟨h k v List.mem_cons_self, fun j w hm => h j w (List.mem_cons_of_mem _ hm)⟩

theorem IsDistinct.nodup {fields : Keyed Value} (h : (object fields).IsDistinct) :
    fields.keys.Nodup := h.1

theorem exists_fields_of_child? {k : Text} {v x : Value} (h : child? (.key k) v = some x) :
    ∃ fields, v = object fields ∧ Keyed.get? fields k = some x := by
  cases v with
  | object fields => exact ⟨fields, rfl, h⟩
  | null | scalar _ | list _ => cases h

theorem exists_items_of_child? {i : Nat} {v x : Value} (h : child? (.index i) v = some x) :
    ∃ items, v = list items ∧ items[i]? = some x := by
  cases v with
  | list items => exact ⟨items, rfl, h⟩
  | null | scalar _ | object _ => cases h

theorem at?_cons_of_child? {segment : PathSegment} {v x : Value} (h : child? segment v = some x)
    (rest : ResponsePath) : at? (segment :: rest) v = at? rest x := by
  rw [at?, h, Option.bind_some]

theorem exists_child?_of_at? {segment : PathSegment} {rest : ResponsePath} {v a : Value}
    (h : at? (segment :: rest) v = some a) :
    ∃ x, child? segment v = some x ∧ at? rest x = some a := Option.bind_eq_some_iff.mp h

theorem IsDistinct.child? {segment : PathSegment} {v x : Value} (h : v.IsDistinct)
    (hx : child? segment v = some x) : x.IsDistinct := by
  cases segment with
  | key k =>
    obtain ⟨fields, rfl, hx⟩ := exists_fields_of_child? hx
    exact fieldsAreDistinct_iff.mp h.2 k x (Keyed.mem_of_get? hx)
  | index i =>
    obtain ⟨items, rfl, hx⟩ := exists_items_of_child? hx
    exact areDistinct_iff.mp h x (List.mem_of_getElem? hx)

theorem Agrees.child? {segment : PathSegment} {x y x' y' : Value} (h : x.Agrees y)
    (hx : child? segment x = some x') (hy : child? segment y = some y') : x'.Agrees y' := by
  intro path a b ha hb
  exact h (segment :: path) a b ((at?_cons_of_child? hx path).trans ha)
    ((at?_cons_of_child? hy path).trans hb)

/-- Values agree if they have the same form and agree where they both go on. -/
theorem Agrees.of {x y : Value} (h : x.form = y.form)
    (hchild : ∀ segment x' y', Value.child? segment x = some x' → Value.child? segment y = some y' →
      x'.Agrees y') : x.Agrees y := by
  intro path a b ha hb
  cases path with
  | nil =>
    obtain rfl := Option.some.inj ha
    obtain rfl := Option.some.inj hb
    exact h
  | cons segment rest =>
    obtain ⟨x', hx', ha⟩ := exists_child?_of_at? ha
    obtain ⟨y', hy', hb⟩ := exists_child?_of_at? hb
    exact hchild segment x' y' hx' hy' rest a b ha hb

theorem Agrees.singleton {x y : Value} (h : x.Agrees y) : (list [x]).Agrees (list [y]) := by
  refine .of rfl fun segment x' y' hx hy => ?_
  rcases segment with k | _ | i
  · cases hx
  · obtain rfl := Option.some.inj hx
    obtain rfl := Option.some.inj hy
    exact h
  · cases hx

theorem Agrees.form {x y : Value} (h : x.Agrees y) : x.form = y.form := h [] x y rfl rfl

theorem exists_of_form_object {v : Value} (h : v.form = .object) : ∃ fields, v = object fields := by
  cases v with
  | object fields => exact ⟨fields, rfl⟩
  | null | scalar _ | list _ => cases h

theorem exists_of_form_list {v : Value} {n : Nat} (h : v.form = .list n) :
    ∃ items, v = list items ∧ items.length = n := by
  cases v with
  | list items => exact ⟨items, rfl, Form.list.inj h⟩
  | null | scalar _ | object _ => cases h

section Merging

theorem form_mergeInto (source target : Value) : (mergeInto source target).form = target.form := by
  cases source <;> cases target <;> first | rfl | simp [mergeInto, form, length_mergeItems]

theorem mergeInto_of_leaf (source : Value) {target : Value} (h : target.form = .leaf) :
    mergeInto source target = target := by
  cases target with
  | null | scalar _ => cases source <;> rfl
  | list _ | object _ => cases h

theorem extends_mergeInto (source target : Value) : (mergeInto source target).Extends target :=
  ⟨form_mergeInto source target, mergeInto_of_leaf source⟩

theorem Extends.refl (x : Value) : x.Extends x := ⟨rfl, fun _ => rfl⟩

/-- What becomes of a field that is there already. -/
theorem child?_key_mergeInto {source target x : Value} (hs : source.IsDistinct) {k : Text}
    (hx : child? (.key k) target = some x) : child? (.key k) (mergeInto source target) =
      some ((child? (.key k) source).elim x (mergeInto · x)) := by
  obtain ⟨targets, rfl, hget⟩ := exists_fields_of_child? hx
  cases source with
  | object sources =>
    show Keyed.get? (mergeFields sources targets) k = _
    rw [get?_mergeFields hs.nodup, hget]
    rfl
  | null | scalar _ | list _ => exact hx

/-- What becomes of an item that is there already. -/
theorem child?_index_mergeInto (source : Value) {target x : Value} {i : Nat}
    (hx : child? (.index i) target = some x) : child? (.index i) (mergeInto source target) =
      some ((child? (.index i) source).elim x (mergeItem · x)) := by
  obtain ⟨targets, rfl, hget⟩ := exists_items_of_child? hx
  cases source with
  | list sources =>
    show (mergeItems sources targets)[i]? = _
    rw [getElem?_mergeItems, hget]
    rfl
  | null | scalar _ | object _ => exact hx

/-- What is there already stays as it is or is merged into. -/
theorem child?_mergeInto {source target x : Value} (hs : source.IsDistinct)
    {segment : PathSegment} (hx : child? segment target = some x) :
    child? segment (mergeInto source target) = some x ∨
      ∃ y, child? segment source = some y ∧
        child? segment (mergeInto source target) = some (mergeInto y x) := by
  cases segment with
  | key k =>
    rw [child?_key_mergeInto hs hx]
    cases hy : child? (.key k) source with
    | none => exact .inl rfl
    | some y => exact .inr ⟨y, rfl, rfl⟩
  | index i =>
    rw [child?_index_mergeInto source hx]
    cases hy : child? (.index i) source with
    | none => exact .inl rfl
    | some y =>
      exact (mergeItem_cases y x).symm.imp (congrArg some) fun h => ⟨y, rfl, congrArg some h⟩

/-- What is there already stays there. -/
theorem exists_extends_of_at? {source target a : Value} (hs : source.IsDistinct)
    {path : ResponsePath} (h : at? path target = some a) :
    ∃ b, at? path (mergeInto source target) = some b ∧ b.Extends a := by
  induction path generalizing source target with
  | nil =>
    obtain rfl := Option.some.inj h
    exact ⟨_, rfl, extends_mergeInto source target⟩
  | cons segment rest ih =>
    obtain ⟨x, hx, h⟩ := exists_child?_of_at? h
    rcases child?_mergeInto hs hx with hstays | ⟨y, hy, hmerges⟩
    · exact ⟨a, (at?_cons_of_child? hstays rest).trans h, .refl a⟩
    · obtain ⟨b, hb, hextends⟩ := ih (hs.child? hy) h
      exact ⟨b, (at?_cons_of_child? hmerges rest).trans hb, hextends⟩

end Merging

section Gains

variable {x y : Value}

/-- Where one of two values of the same form goes on and the other one does not, an object lacks a
field. -/
theorem exists_lacking (h : x.Agrees y) {path : ResponsePath} {b : Value}
    (hx : at? path x = none) (hy : at? path y = some b) : ∃ before k after,
      path = before ++ .key k :: after ∧ (at? before x).isSome ∧
        (at? (before ++ [.key k]) y).isSome ∧ at? (before ++ [.key k]) x = none := by
  induction path generalizing x y with
  | nil => cases hx
  | cons segment rest ih =>
    obtain ⟨y', hy', hb⟩ := exists_child?_of_at? hy
    cases hx' : child? segment x with
    | some x' =>
      rw [at?_cons_of_child? hx'] at hx
      obtain ⟨before, k, after, rfl, hbefore, hthere, hlacks⟩ := ih (h.child? hx' hy') hx hb
      refine ⟨segment :: before, k, after, rfl, ?_, ?_, ?_⟩
      · rwa [at?_cons_of_child? hx']
      · rwa [List.cons_append, at?_cons_of_child? hy']
      · rwa [List.cons_append, at?_cons_of_child? hx']
    | none =>
      cases segment with
      | key k => exact ⟨[], k, rest, rfl, rfl, by simp [at?, hy'], by simp [at?, hx']⟩
      | index i =>
        -- lists at one place have items at the same indices
        obtain ⟨ys, rfl, hget⟩ := exists_items_of_child? hy'
        obtain ⟨xs, rfl, hlength⟩ := exists_of_form_list h.form
        have hnone : xs[i]? = none := hx'
        rw [List.getElem?_eq_none_iff, hlength, ← List.getElem?_eq_none_iff, hget] at hnone
        cases hnone

/-- A field that the first value lacks is put in with all that it holds, if merging comes there. -/
theorem at?_mergeInto_of_isFollowed (hy : y.IsDistinct) (h : x.Agrees y) {before : ResponsePath}
    (hfollowed : before.IsFollowed) {k : Text} (hbefore : (at? before x).isSome)
    (hthere : (at? (before ++ [.key k]) y).isSome) (hlacks : at? (before ++ [.key k]) x = none)
    (after : ResponsePath) :
    at? (before ++ .key k :: after) (mergeInto y x) = at? (before ++ .key k :: after) y := by
  induction before generalizing x y with
  | nil =>
    obtain ⟨b, hb⟩ := Option.isSome_iff_exists.mp hthere
    obtain ⟨y', hy', -⟩ := exists_child?_of_at? hb
    obtain ⟨ys, rfl, -⟩ := exists_fields_of_child? hy'
    obtain ⟨xs, rfl⟩ := exists_of_form_object h.form
    have hx' : Keyed.get? xs k = none := by
      cases hx' : Keyed.get? xs k with
      | none => rfl
      | some x' => simp [at?, child?, hx'] at hlacks
    have hget : Keyed.get? (mergeFields ys xs) k = Keyed.get? ys k := by
      rw [get?_mergeFields hy.nodup, hx']
      rfl
    simp only [List.nil_append, at?, child?, mergeInto, hget]
  | cons segment before ih =>
    obtain ⟨a, ha⟩ := Option.isSome_iff_exists.mp hbefore
    obtain ⟨x', hx', ha'⟩ := exists_child?_of_at? ha
    obtain ⟨b, hb⟩ := Option.isSome_iff_exists.mp hthere
    rw [List.cons_append] at hb
    obtain ⟨y', hy', hb'⟩ := exists_child?_of_at? hb
    have hlacks' : at? (before ++ [.key k]) x' = none := by
      rwa [List.cons_append, at?_cons_of_child? hx'] at hlacks
    have hbelow (hrest : ResponsePath.IsFollowed before) :=
      ih (hy.child? hy') (h.child? hx' hy') hrest (Option.isSome_of_eq_some ha')
        (Option.isSome_of_eq_some hb') hlacks'
    cases segment with
    | key j =>
      have hmerged := child?_key_mergeInto hy hx'
      rw [hy'] at hmerged
      rw [List.cons_append, at?_cons_of_child? hmerged, at?_cons_of_child? hy']
      exact hbelow hfollowed
    | index i =>
      obtain ⟨hhead, hrest⟩ := hfollowed
      -- below an index the path goes on with a key, so that there are objects to merge
      obtain ⟨j, others, hnext⟩ : ∃ j others, before ++ [.key k] = .key j :: others := by
        rcases before with _ | ⟨j | j, before⟩
        · exact ⟨k, [], rfl⟩
        · exact ⟨j, _, rfl⟩
        · exact absurd rfl (hhead j)
      rw [hnext] at hb'
      obtain ⟨y'', hy'', -⟩ := exists_child?_of_at? hb'
      obtain ⟨ys, rfl, -⟩ := exists_fields_of_child? hy''
      obtain ⟨xs, rfl⟩ := exists_of_form_object (h.child? hx' hy').form
      have hmerged := child?_index_mergeInto y hx'
      rw [hy'] at hmerged
      rw [List.cons_append, at?_cons_of_child? hmerged, at?_cons_of_child? hy']
      exact hbelow hrest

/-- Merging puts nothing into a list that is an item of a list. -/
theorem at?_mergeInto_of_not_isFollowed (hy : y.IsDistinct) {before : ResponsePath}
    (hfollowed : ¬ before.IsFollowed) {segment : PathSegment} (hbefore : (at? before x).isSome)
    (hlacks : at? (before ++ [segment]) x = none) :
    at? (before ++ [segment]) (mergeInto y x) = none := by
  induction before generalizing x y with
  | nil => exact (hfollowed trivial).elim
  | cons first before ih =>
    obtain ⟨a, ha⟩ := Option.isSome_iff_exists.mp hbefore
    obtain ⟨x', hx', ha'⟩ := exists_child?_of_at? ha
    have hlacks' : at? (before ++ [segment]) x' = none := by
      rwa [List.cons_append, at?_cons_of_child? hx'] at hlacks
    by_cases hrest : ResponsePath.IsFollowed before
    · -- the path leads into a list at an index, and what is there stays
      obtain ⟨i, j, rest, rfl, rfl⟩ : ∃ i j rest, first = .index i ∧ before = .index j :: rest := by
        rcases first with k | i
        · exact (hfollowed hrest).elim
        · rcases before with _ | ⟨k | j, rest⟩
          · exact (hfollowed ⟨nofun, hrest⟩).elim
          · exact (hfollowed ⟨by simp, hrest⟩).elim
          · exact ⟨i, j, rest, rfl, rfl⟩
      obtain ⟨x'', hx'', -⟩ := exists_child?_of_at? ha'
      obtain ⟨items, rfl, -⟩ := exists_items_of_child? hx''
      have hstays : child? (.index i) (mergeInto y x) = some (list items) := by
        rw [child?_index_mergeInto y hx']
        cases child? (.index i) y with
        | none => rfl
        | some y' => exact congrArg some (mergeItem_list y' items)
      rwa [List.cons_append, at?_cons_of_child? hstays]
    · rcases child?_mergeInto hy hx' with hstays | ⟨y', hy', hmerges⟩
      · rwa [List.cons_append, at?_cons_of_child? hstays]
      · rw [List.cons_append, at?_cons_of_child? hmerges]
        exact ih (hy.child? hy') hrest (Option.isSome_of_eq_some ha') hlacks'

end Gains

/-- Merging two results of one field keeps everything that is there already, with its leaves. It
loses nothing of the second result exactly if merging comes to every object of the first one that
lacks a field of the second. -/
theorem mergeKey_keeps_iff {fields : Keyed Value} {k : Text} {x y : Value}
    (hx : Keyed.get? fields k = some x) (hy : y.IsDistinct) (h : x.Agrees y) :
    ∃ merged, Keyed.get? (mergeKey fields k y) k = some merged ∧
      (∀ path a, at? path x = some a → ∃ b, at? path merged = some b ∧ b.Extends a) ∧
      (merged.Keeps x y ↔ ∀ before key, (at? before x).isSome →
        (at? (before ++ [.key key]) y).isSome → at? (before ++ [.key key]) x = none →
        ResponsePath.IsFollowed before) := by
  refine ⟨mergeInto y x, by simp [get?_mergeKey, hx], fun _ _ => exists_extends_of_at? hy,
    fun hkeeps before key hbefore hthere hlacks => ?_, fun hfollowed => ?_⟩
  · refine Classical.byContradiction fun hnot => ?_
    have hlost := at?_mergeInto_of_not_isFollowed hy hnot hbefore hlacks
    simpa [hlost] using hkeeps.path _ (.inr hthere)
  · have hput {path b} (hpath : at? path x = none) (hb : at? path y = some b) :
        at? path (mergeInto y x) = some b := by
      obtain ⟨before, key, after, rfl, hbefore, hthere, hlacks⟩ := exists_lacking h hpath hb
      rw [at?_mergeInto_of_isFollowed hy h (hfollowed before key hbefore hthere hlacks) hbefore
        hthere hlacks, hb]
    refine ⟨fun path hpath => ?_, fun path a ha hleaf => ?_, fun path b hpath hb _ => hput hpath hb⟩
    · cases ha : at? path x with
      | some a =>
        obtain ⟨b, hb, -⟩ := exists_extends_of_at? hy ha
        exact Option.isSome_of_eq_some hb
      | none =>
        obtain ⟨b, hb⟩ := Option.isSome_iff_exists.mp (hpath.resolve_left (by simp [ha]))
        exact Option.isSome_of_eq_some (hput ha hb)
    · obtain ⟨b, hb, hextends⟩ := exists_extends_of_at? hy ha
      rw [hb, hextends.leaf hleaf]

namespace Grid

/-- The one cell of a grid, and what another selection gives of the same cell. -/
def cell : Value := object [(lit "a", .scalar (.int 1))]

def more : Value := object [(lit "b", .scalar (.int 2))]

theorem agrees_cell : cell.Agrees more := by
  refine .of rfl fun segment x y hx hy => ?_
  cases segment with
  | index i => cases hx
  | key k =>
    have ha : k = lit "a" := by
      by_cases h : k = lit "a"
      · exact h
      · simp [child?, cell, Keyed.get?_cons, h] at hx
    subst ha
    simp [child?, more, Keyed.get?_cons, show lit "a" ≠ lit "b" by decide] at hy

theorem mergeKey_loses : ∃ merged,
    Keyed.get? (mergeKey [(lit "k", list [list [cell]])] (lit "k") (list [list [more]])) (lit "k") =
      some merged ∧ ¬ merged.Keeps (list [list [cell]]) (list [list [more]]) := by
  have hx : Keyed.get? [(lit "k", list [list [cell]])] (lit "k") = some (list [list [cell]]) := by
    simp [Keyed.get?_cons]
  have hy : (list [list [more]]).IsDistinct := by
    simp [IsDistinct, AreDistinct, FieldsAreDistinct, more, Keyed.keys]
  obtain ⟨merged, hmerged, -, hiff⟩ := mergeKey_keeps_iff hx hy agrees_cell.singleton.singleton
  refine ⟨merged, hmerged, fun hkeeps => ?_⟩
  -- the path leads through two lists to the cell, which lacks the field
  have hfollowed := hiff.mp hkeeps [.index 0, .index 0] (lit "b") rfl (by decide) (by decide)
  exact hfollowed.1 0 rfl

end Grid

end Value

end GraphQL
