import Mathlib.Logic.Relation
import GraphQL.Proofs.Execution.Recording
import GraphQL.Proofs.Schema.Subtypes

/-! Where the errors of fields are recorded. When resolvers do nothing but fail, and leave it to the
selections how a value is resolved, the path of every error leads along fields that are selected one
below the other, and its place is that of the last of them. -/

namespace GraphQL

open Relation (ReflTransGen)

variable {σ : Type}

/-- The name of a segment that is one. -/
def PathSegment.key? : PathSegment → Option Text
  | key name => some name
  | index _ => none

/-- A field that is selected on an object, directly or in fragments that are not excluded and apply
to the object. -/
inductive Scope.Selects (scope : Scope) (objectName : Text) (head : FieldHead)
    (body : Option SelectionSet) : SelectionSet → Prop where
  | field {xs : SelectionSet} (mem : .field head body ∈ xs)
      (included : Directives.exclude scope.vars (head.directives.getD []) = .ok false) :
      Selects scope objectName head body xs
  | spread {xs : SelectionSet} {sp : Spread} {f : Fragment} (mem : .spread sp ∈ xs)
      (put : scope.spreadOn objectName sp = .ok (some f))
      (inside : Selects scope objectName head body f.selections) :
      Selects scope objectName head body xs
  | inline {xs inner : SelectionSet} {h : InlineHead} (mem : .inline h inner ∈ xs)
      (entered : scope.entersInline objectName h = .ok true)
      (inside : Selects scope objectName head body inner) : Selects scope objectName head body xs

theorem Scope.Selects.mono {scope : Scope} {objectName : Text} {head : FieldHead}
    {body : Option SelectionSet} {xs ys : SelectionSet}
    (h : scope.Selects objectName head body xs) (hsub : ∀ x ∈ xs, x ∈ ys) :
    scope.Selects objectName head body ys := by
  cases h with
  | field mem included => exact .field (hsub _ mem) included
  | spread mem put inside => exact .spread (hsub _ mem) put inside
  | inline mem entered inside => exact .inline (hsub _ mem) entered inside

/-- A task that resolves a field at a cursor on an object, as the type of the object declares it. -/
def FieldTask.IsOf (t : FieldTask) (subject : Subject) (c : Cursor) (head : FieldHead)
    (body : Option SelectionSet) : Prop :=
  ∃ declaration, subject.type.field? head.name.value = some declaration ∧
    c.atField ⟨head, declaration⟩ body = .ok t.cursor ∧ t.name = head.name.value ∧
    t.arguments = .ofField c.scope.vars head declaration.arguments

/-- How the fields of a value are resolved. -/
def Node.handlers : Node σ → Subject.Handlers σ
  | .mk typeName objectName field into _ => ⟨typeName, objectName,
    fun task => (field task.name task.arguments task.cursor).run task.cursor,
    fun condition c => (into condition).run? c⟩

/-- The resolver of a field. -/
def Node.onField : Node σ → FieldTask → Action σ
  | .mk _ _ field _ _, t => field t.name t.arguments t.cursor

/-- A field that is selected at a cursor on a value and comes to be resolved in the state `u`, when
the value is resolved from the state `s` on. -/
structure Node.Resolves (node : Node σ) (c : Cursor) (s : Effects σ) (head : FieldHead)
    (t : FieldTask) (u : Effects σ) : Prop where
  started : ∃ xs body type, c.selections = some xs ∧
    c.scope.Selects node.objectName head body xs ∧
    c.scope.schema.type? node.typeName = some type ∧ t.IsOf ⟨type, node.objectName⟩ c head body ∧
    (Plan.ofSelectionSet ⟨type, node.objectName⟩ c xs).IsRun node.handlers c.isConcurrent ∧
    (Plan.ofSelectionSet ⟨type, node.objectName⟩ c xs).Starts node.handlers c.isConcurrent t u s

/-- What a resolver resolves: a value in its place, or values as the items of a list. -/
inductive Offer (σ : Type) where
  | value (node : Node σ)
  | items (nodes : List (Option (Node σ)))

/-- What a resolver resolves next. -/
def Action.offer? : Action σ → Option (Offer σ)
  | .resolve (some node) _ => some (.value node)
  | .resolveInto node _ => some (.value node)
  | .resolveList nodes _ => some (.items nodes)
  | _ => none

theorem Action.run_resolveInto (node : Node σ) (next : Value → Action σ) (c : Cursor) :
    (Action.resolveInto node next).run c =
      (node.resolveInto c).toResolve >>= fun v => (next v).run c := by
  refine funext fun s => ?_
  show ((Action.resolveInto node next).run c).run.run s =
    ((node.resolveInto c).toResolve >>= fun v => (next v).run c).run.run s
  unfold Node.resolveInto
  rw [Action.run, run_bind, run_bind, Run.run_toResolve, Run.run_toResolve, run_bind]
  rcases ((node.resolve c).captured c c.location).run.run s with ⟨_ | _, _⟩ <;> rfl

/-- One thing that a resolver does at a cursor: what is left to do after it, in which state. -/
inductive Action.Goes (c : Cursor) : Action σ × Effects σ → Action σ × Effects σ → Prop where
  | report {e : FieldError} {location : Option Position} {next : Action σ} {s : Effects σ} :
      Goes c (.report e location next, s) (next, s.record c (location.getD c.location) e)
  | update {f : σ → σ} {next : σ → Action σ} {s : Effects σ} :
      Goes c (.update f next, s) (next (f s.world), { s with world := f s.world })
  | resolve {node : Option (Node σ)} {next : Value → Action σ} {v : Value} {s u : Effects σ}
      (ran : (resolvePresent node c).run.run s = (.ok v, u)) :
      Goes c (.resolve node next, s) (next v, u)
  | resolveInto {node : Node σ} {next : Value → Action σ} {v : Value} {s u : Effects σ}
      (ran : (node.resolveInto c).run.run s = (.ok v, u)) :
      Goes c (.resolveInto node next, s) (next v, u)
  | resolveList {nodes : List (Option (Node σ))} {next : Value → Action σ}
      {element : TypePosition} {items : Option (List Value)} {s u : Effects σ}
      (list : c.currentType.element? = some element)
      (ran : (resolveItems element.isNonNull nodes 0 c).run.run s = (.ok items, u)) :
      Goes c (.resolveList nodes next, s) (next (items.elim .null .list), u)

/-- A resolver ends as what is left of it does. -/
theorem Action.run_of_goes {a b : Action σ} {c : Cursor} {s u : Effects σ}
    (h : Goes c (a, s) (b, u)) : (a.run c).run.run s = (b.run c).run.run u := by
  cases h with
  | report => rfl
  | update => rfl
  | resolve ran => rw [Action.run, run_bind, ran]
  | resolveInto ran =>
    rw [Action.run_resolveInto, run_bind, Run.run_toResolve, ran]
    rfl
  | @resolveList nodes next element items s u list ran =>
    rw [Action.run, list]
    dsimp only
    rw [run_bind, ran]
    cases items <;> rfl

/-- A resolver that is run from the state `s` comes to resolve something in the state `u`. -/
def Action.Offers (action : Action σ) (c : Cursor) (o : Offer σ) (s u : Effects σ) : Prop :=
  ∃ rest, ReflTransGen (Goes c) (action, s) (rest, u) ∧ rest.offer? = some o

theorem Action.Offers.head {a b : Action σ} {c : Cursor} {o : Offer σ} {s t u : Effects σ}
    (goes : Goes c (a, s) (b, t)) (h : b.Offers c o t u) : a.Offers c o s u := by
  obtain ⟨rest, hrest, ho⟩ := h
  exact ⟨rest, .head goes hrest, ho⟩

/-- An item that comes to be resolved in the state `u`, once the items before it are, when items are
resolved from an index and the state `s` on. -/
def ItemStarts (element : TypePosition) (nodes : List (Option (Node σ))) (start k : Nat)
    (c : Cursor) (child : Node σ) (s u : Effects σ) : Prop :=
  nodes[k]? = some (some child) ∧
    ∃ before, (resolveItems element.isNonNull (nodes.take k) start c).run.run s =
      (.ok (some before), u)

/-- A path from a value on, and the fields along it, when the value is resolved from a state on.
Each field is selected on the value that the field before it resolved. An index stands below a field
of a list type and counts the items that the field resolves. -/
inductive Node.Trail : Node σ → Cursor → Effects σ → ResponsePath → List FieldHead → Prop where
  | field {node : Node σ} {c : Cursor} {s u : Effects σ} {head : FieldHead} {t : FieldTask}
      (h : node.Resolves c s head t u) : Trail node c s [.key head.responseName] [head]
  | value {node child : Node σ} {c : Cursor} {s u w : Effects σ} {head : FieldHead} {t : FieldTask}
      {path : ResponsePath} {chain : List FieldHead} (h : node.Resolves c s head t u)
      (offers : (node.onField t).Offers t.cursor (.value child) u w)
      (rest : child.Trail t.cursor w path chain) :
      Trail node c s (.key head.responseName :: path) (head :: chain)
  | item {node child : Node σ} {c : Cursor} {s u w x : Effects σ} {head : FieldHead}
      {t : FieldTask} {nodes : List (Option (Node σ))} {element : TypePosition} {i : Nat}
      {path : ResponsePath} {chain : List FieldHead} (h : node.Resolves c s head t u)
      (offers : (node.onField t).Offers t.cursor (.items nodes) u w)
      (list : t.cursor.currentType.element? = some element) (bound : i < nodes.length)
      (starts : ItemStarts element nodes 0 i t.cursor child w x)
      (rest : child.Trail (t.cursor.atIndex i) x path chain) :
      Trail node c s (.key head.responseName :: .index i :: path) (head :: chain)

theorem Node.Trail.filterMap_key? {node : Node σ} {c : Cursor} {s : Effects σ}
    {path : ResponsePath} {chain : List FieldHead} (h : node.Trail c s path chain) :
    path.filterMap PathSegment.key? = chain.map (·.responseName) := by
  induction h with
  | field h => rfl
  | value h offers rest ih => exact congrArg _ ih
  | item h offers list bound starts rest ih => exact congrArg _ ih

/-- An error that is recorded below a cursor where a trail ends, at the place of its last field. -/
def Node.Spots (node : Node σ) (c : Cursor) (s : Effects σ) (e : ExecutionError) : Prop :=
  ∃ path chain, node.Trail c s path chain ∧ e.path = c.path.segments ++ path ∧
    ∃ last, chain.getLast? = some last ∧ e.location = last.span.start

/-- An error of a resolver: at its own place, or below a value that it resolves. -/
inductive Action.Spots (action : Action σ) (c : Cursor) (s : Effects σ) (e : ExecutionError) :
    Prop where
  | here (path : e.path = c.path.segments) (location : e.location = c.location)
  | value {child : Node σ} {u : Effects σ} (offers : action.Offers c (.value child) s u)
      (below : child.Spots c u e)
  | item {nodes : List (Option (Node σ))} {element : TypePosition} {i : Nat} {child : Node σ}
      {u w : Effects σ} (offers : action.Offers c (.items nodes) s u)
      (list : c.currentType.element? = some element)
      (starts : ItemStarts element nodes 0 i c child u w) (below : child.Spots (c.atIndex i) w e)

theorem Action.Spots.head {a b : Action σ} {c : Cursor} {s u : Effects σ} {e : ExecutionError}
    (goes : Goes c (a, s) (b, u)) (h : b.Spots c u e) : a.Spots c s e := by
  cases h with
  | here path location => exact .here path location
  | value offers below => exact .value (offers.head goes) below
  | item offers list starts below => exact .item (offers.head goes) list starts below

theorem Node.Resolves.spots {node : Node σ} {c : Cursor} {s u : Effects σ} {head : FieldHead}
    {t : FieldTask} {e : ExecutionError} (h : node.Resolves c s head t u)
    (he : (node.onField t).Spots t.cursor u e) : node.Spots c s e := by
  have hpath : t.cursor.path = c.path.field head.responseName head.span.start := by
    obtain ⟨_, _, _, -, -, -, ⟨_, -, hc, -⟩, -⟩ := h.started
    obtain ⟨type, -, hcursor⟩ := Cursor.exists_of_atField hc
    rw [hcursor]
  have hsegments : t.cursor.path.segments = c.path.segments ++ [.key head.responseName] := by
    rw [hpath]
    rfl
  cases he with
  | here path location =>
    refine ⟨_, _, .field h, path.trans hsegments, head, rfl, location.trans ?_⟩
    rw [Cursor.location, hpath]
    rfl
  | value offers spot =>
    obtain ⟨path, chain, htrail, hbelow, last, hlast, hplace⟩ := spot
    refine ⟨_, _, .value h offers htrail, ?_, last, ?_, hplace⟩
    · rw [hbelow, hsegments, List.append_assoc]
      rfl
    · rw [List.getLast?_cons, hlast]
      rfl
  | @item nodes element i child _ _ offers list starts spot =>
    obtain ⟨path, chain, htrail, hbelow, last, hlast, hplace⟩ := spot
    have bound : i < nodes.length := (List.getElem?_eq_some_iff.mp starts.1).1
    refine ⟨_, _, .item h offers list bound starts htrail, ?_, last, ?_, hplace⟩
    · rw [hbelow, show (t.cursor.atIndex i).path.segments = t.cursor.path.segments ++ [.index i]
        from rfl, hsegments, List.append_assoc, List.append_assoc]
      rfl
    · rw [List.getLast?_cons, hlast]
      rfl

mutual

/-- A value that leaves it to the selections how it is resolved. Its resolvers fail and report
errors in their own place, and so do those of the values that they resolve. -/
def Node.IsPlain : Node σ → Prop
  | .mk _ _ field into whole => (∀ name arguments c, (field name arguments c).IsPlain) ∧
      (∀ condition, into condition = .none) ∧ whole = .none

def Action.IsPlain : Action σ → Prop
  | .value _ => True
  | .fail _ => True
  | .violate _ => True
  | .report _ location next => location = none ∧ next.IsPlain
  | .update _ next => ∀ world, (next world).IsPlain
  | .resolve node next => isPlainIfAny node ∧ ∀ v, (next v).IsPlain
  | .resolveInto node next => node.IsPlain ∧ ∀ v, (next v).IsPlain
  | .resolveList nodes next => areAllPlain nodes ∧ ∀ v, (next v).IsPlain

def isPlainIfAny : Option (Node σ) → Prop
  | none => True
  | some node => node.IsPlain

def areAllPlain : List (Option (Node σ)) → Prop
  | [] => True
  | node :: rest => isPlainIfAny node ∧ areAllPlain rest

end

section Selecting

variable {subject : Subject}

/-- Every field of a plan is among certain fields that are resolved at a cursor. -/
abbrev Plan.IsAmong (subject : Subject) (c : Cursor)
    (fields : FieldHead → Option SelectionSet → Prop) : Plan → Prop :=
  All (fun t => ∃ head body, fields head body ∧ t.IsOf subject c head body) (fun _ => True)
    fun _ => True

abbrev Step.IsAmong (subject : Subject) (c : Cursor)
    (fields : FieldHead → Option SelectionSet → Prop) : Step → Prop :=
  All (fun t => ∃ head body, fields head body ∧ t.IsOf subject c head body) (fun _ => True)
    fun _ => True

namespace Plan

variable {expand : Expand} {c : Cursor}

/-- The fields that a fragment expands to are selected in it, wherever inside a selection set it
stands. -/
def Expand.IsAmong (subject : Subject) (c : Cursor) (expand : Expand) : Prop :=
  ∀ (f : Fragment) (fields : FieldHead → Option SelectionSet → Prop),
    (∀ head body, c.scope.Selects subject.objectName head body f.selections → fields head body) →
    ∀ c' : Cursor, c'.scope = c.scope → c'.path = c.path → (expand c' f).IsAmong subject c fields

mutual

theorem isAmong_ofSelection (hexpand : expand.IsAmong subject c) :
    ∀ (x : Selection) (fields : FieldHead → Option SelectionSet → Prop),
      (∀ head body, c.scope.Selects subject.objectName head body [x] → fields head body) →
      ∀ c' : Cursor, c'.scope = c.scope → c'.path = c.path →
      ∀ s, ofSelection subject expand c' x = .ok (some s) → s.IsAmong subject c fields
  | .field head body, fields, h, c', hscope, hpath, s, hs => by
    obtain ⟨hx, hfield⟩ := ofField_of_ofSelection hs
    rw [hscope] at hx
    have hmem := h head body (.field (List.mem_singleton.mpr rfl) hx)
    rcases ofField_cases_of_ok hfield with ⟨-, rfl⟩ | ⟨declaration, below, hd, hc, rfl⟩
    · trivial
    · have hat : c.atField ⟨head, declaration⟩ body = .ok below := by
        rw [← hc, Cursor.atField, Cursor.atField, hscope, hpath]
      exact ⟨head, body, hmem, declaration, hd, hat, rfl, by rw [hscope]⟩
  | .spread sp, fields, h, c', hscope, hpath, s, hs => by
    obtain ⟨f, hput, rfl⟩ := spreadOn_of_ofSelection hs
    rw [hscope] at hput
    exact hexpand f fields
      (fun head body inside => h head body (.spread (List.mem_singleton.mpr rfl) hput inside))
      c' hscope hpath
  | .inline head inner, fields, h, c', hscope, hpath, s, hs => by
    obtain ⟨hentered, rfl⟩ := entersInline_of_ofSelection hs
    rw [hscope] at hentered
    refine Step.all_ofInline ?_ fun _ _ => trivial
    exact isAmong_ofSelections hexpand inner fields
      (fun head body inside => h head body (.inline (List.mem_singleton.mpr rfl) hentered inside))
      (c'.atInline head.condition inner) hscope hpath

theorem isAmong_ofSelections (hexpand : expand.IsAmong subject c) :
    ∀ (xs : List Selection) (fields : FieldHead → Option SelectionSet → Prop),
      (∀ head body, c.scope.Selects subject.objectName head body xs → fields head body) →
      ∀ c' : Cursor, c'.scope = c.scope → c'.path = c.path →
        (ofSelections subject expand c' xs).IsAmong subject c fields
  | [], _, _, _, _, _ => trivial
  | x :: rest, fields, h, c', hscope, hpath => by
    have hx := isAmong_ofSelection hexpand x fields
      (fun head body hs => h head body (hs.mono (by simp))) c' hscope hpath
    have hrest := isAmong_ofSelections hexpand rest fields
      (fun head body hs => h head body (hs.mono (by simp +contextual))) c' hscope hpath
    unfold ofSelections
    rcases hsel : ofSelection subject expand c' x with v | _ | s
    · trivial
    · exact hrest
    · exact ⟨hx s hsel, hrest⟩

end

theorem isAmong_expandUpTo (depth : Nat) : (expandUpTo subject depth).IsAmong subject c := by
  induction depth with
  | zero => exact fun _ _ _ _ _ _ => trivial
  | succ depth ih => exact fun f fields h => isAmong_ofSelections ih f.selections fields h

/-- The fields of a plan are those that are selected on the object. -/
theorem isAmong_ofSelectionSet (subject : Subject) (c : Cursor) (xs : SelectionSet) :
    (ofSelectionSet subject c xs).IsAmong subject c fun head body =>
      c.scope.Selects subject.objectName head body xs :=
  isAmong_ofSelections (isAmong_expandUpTo _) xs _ (fun _ _ h => h) c rfl rfl

end Plan

end Selecting

section Running

theorem Node.resolve_of_plain (typeName objectName : Text)
    (field : Text → FieldArguments → Cursor → Action σ) (into : Text → Override σ) (c : Cursor) :
    (Node.mk typeName objectName field into .none).resolve c = match c.selections with
      | none => throw (.violation (.noSelectionSet typeName))
      | some xs => (c.resolveSelections
          (Node.mk typeName objectName field into .none).handlers xs).toResolve := by
  unfold Node.resolve
  rfl

/-- A value that leaves its resolution to the selections does not fail. -/
theorem Node.IsPlain.run_resolve {node : Node σ} (h : node.IsPlain) (c : Cursor) (s : Effects σ) :
    ∃ r : Except Violation Value, ((node.resolve c).run.run s).1 = r.mapError .violation := by
  obtain ⟨typeName, objectName, field, into, whole⟩ := node
  obtain rfl : whole = .none := h.2.2
  rw [Node.resolve_of_plain]
  cases c.selections with
  | none => exact ⟨.error (.noSelectionSet typeName), rfl⟩
  | some xs => exact ⟨_, rfl⟩

theorem Records.captured_of_isPlain {P : ExecutionError → Prop} {node : Node σ} {c : Cursor}
    {s : Effects σ} {location : Position} (hnode : node.IsPlain)
    (h : Records P (node.resolve c) s) : Records P ((node.resolve c).captured c location) s := by
  refine .captured h fun e u hu => ?_
  obtain ⟨r, hr⟩ := hnode.run_resolve c s
  rw [hu] at hr
  cases r <;> cases hr

/-- What a resolver records is recorded in one step and by what is left of it. -/
theorem Records.goes {P : ExecutionError → Prop} {a b : Action σ} {c : Cursor} {s u : Effects σ}
    (goes : Action.Goes c (a, s) (b, u)) (h : Records P (b.run c) u)
    (hstep : ∀ e ∈ u.errors, e ∈ s.errors ∨ P e) : Records P (a.run c) s := by
  intro e he
  rw [Action.run_of_goes goes] at he
  exact (h e he).elim (hstep e) .inr

/-- Items before an item that is resolved after another one: that one has been resolved too. -/
theorem ItemStarts.tail {element : TypePosition} {node : Option (Node σ)}
    {rest : List (Option (Node σ))} {start k : Nat} {c : Cursor} {child : Node σ} {v : Value}
    {s u w : Effects σ} (hv : (resolveItem node (c.atIndex start)).run.run s = (.ok v, u))
    (hgo : (element.isNonNull && v.isNull) = false)
    (h : ItemStarts element rest (start + 1) k c child u w) :
    ItemStarts element (node :: rest) start (k + 1) c child s w := by
  obtain ⟨hfound, before, hbefore⟩ := h
  refine ⟨by simpa using hfound, v :: before, ?_⟩
  rw [List.take_succ_cons]
  unfold resolveItems
  rw [run_bind, hv]
  simp only [hgo, Bool.false_eq_true, if_false]
  rw [run_bind, hbefore]
  rfl

/-- The errors of a field that a value resolves lie below the value. -/
theorem Node.spots_of_starts (node : Node σ) {c : Cursor} {xs : SelectionSet} {type : TypeDef}
    (hxs : c.selections = some xs) (htype : c.scope.schema.type? node.typeName = some type)
    {s u : Effects σ} {t : FieldTask}
    (hrun : (Plan.ofSelectionSet ⟨type, node.objectName⟩ c xs).IsRun node.handlers c.isConcurrent)
    (ht : (Plan.ofSelectionSet ⟨type, node.objectName⟩ c xs).Starts node.handlers c.isConcurrent t u
      s) {e : ExecutionError} (he : (node.onField t).Spots t.cursor u e) : node.Spots c s e := by
  obtain ⟨head, body, hselected, hof⟩ := Plan.all_of_starts _ s ht
    (Plan.isAmong_ofSelectionSet ⟨type, node.objectName⟩ c xs)
  have hresolves : node.Resolves c s head t u :=
    ⟨xs, body, type, hxs, hselected, htype, hof, hrun, ht⟩
  exact hresolves.spots he

-- Each resolver is run at the cursor of its field, or at that of an item of it; what it records is
-- seen from there, and from the value by way of the field.
mutual

theorem Node.records_resolve : ∀ (node : Node σ) (c : Cursor) (s : Effects σ), node.IsPlain →
    Records (node.Spots c s) (node.resolve c) s
  | .mk typeName objectName field into whole, c, s, ⟨hfield, hinto, hwhole⟩ => by
    subst hwhole
    rw [Node.resolve_of_plain]
    cases hxs : c.selections with
    | none => exact .throw _
    | some xs =>
      refine .toResolve (.ofExcept_bind fun type htype => .bind ?_ fun _ _ _ => .pure _)
      refine Tasks.records_run fun hrun => Plan.records_tasks (fun condition c => ?_) _ s
        fun t u ht => ?_
      · show (into condition).run? c = none
        rw [hinto condition]
        rfl
      · let node : Node σ := .mk typeName objectName field into .none
        have hspots (e : ExecutionError)
            (he : (field t.name t.arguments t.cursor).Spots t.cursor u e) : node.Spots c s e :=
          node.spots_of_starts hxs (Schema.type?_of_requireType htype) hrun ht he
        exact .captured ((Action.records_run _ _ u (hfield _ _ _)).mono hspots)
          fun e _ _ => hspots _ (.here rfl rfl)

theorem Action.records_run : ∀ (action : Action σ) (c : Cursor) (s : Effects σ), action.IsPlain →
    Records (action.Spots c s) (action.run c) s
  | .value _, _, _, _ => .pure _
  | .fail _, _, _, _ => .throw _
  | .violate _, _, _, _ => .throw _
  | .report e location next, c, s, ⟨hlocation, hnext⟩ => by
    subst hlocation
    have goes : Action.Goes c (.report e none next, s) (next, s.record c c.location e) := .report
    exact .goes goes ((Action.records_run next c _ hnext).mono fun _ h => h.head goes)
      (Records.record c c.location e (.here rfl rfl))
  | .update f next, c, s, hnext =>
    .goes .update ((Action.records_run (next (f s.world)) c _ (hnext _)).mono fun _ h =>
      h.head .update) fun _ he => .inl he
  | .resolve node next, c, s, ⟨hnode, hnext⟩ => by
    refine .bind ((records_resolvePresent node c s hnode).mono fun e h => ?_) fun v u hu => ?_
    · obtain ⟨child, rfl, hspot⟩ := h
      exact .value ⟨_, .refl, rfl⟩ hspot
    · exact (Action.records_run (next v) c u (hnext v)).mono fun _ h => h.head (.resolve hu)
  | .resolveInto node next, c, s, ⟨hnode, hnext⟩ => by
    have hspots : Records (Action.Spots (.resolveInto node next) c s) (node.resolve c) s :=
      (Node.records_resolve node c s hnode).mono fun _ h => .value ⟨_, .refl, rfl⟩ h
    have hinto : Records (Action.Spots (.resolveInto node next) c s) (node.resolveInto c) s :=
      .bind (.captured_of_isPlain hnode hspots) fun _ _ _ => .pure _
    rw [Action.run_resolveInto]
    refine .bind (.toResolve hinto) fun v u hu => ?_
    exact (Action.records_run (next v) c u (hnext v)).mono fun _ h =>
      h.head (.resolveInto (Run.run_of_toResolve hu))
  | .resolveList nodes next, c, s, ⟨hnodes, hnext⟩ => by
    unfold Action.run
    cases hlist : c.currentType.element? with
    | none => exact .throw _
    | some element =>
      refine .bind ((records_resolveItems element nodes 0 c s hnodes).mono
        fun e h => ?_) fun items u hu => ?_
      · obtain ⟨k, child, w, hstarts, hspot⟩ := h
        rw [Nat.zero_add] at hspot
        exact .item ⟨_, .refl, rfl⟩ hlist hstarts hspot
      · have hafter : Records (Action.Spots (.resolveList nodes next) c s)
            ((next (items.elim .null .list)).run c) u :=
          (Action.records_run (next _) c u (hnext _)).mono fun _ h => h.head (.resolveList hlist hu)
        cases items with
        | none => exact hafter
        | some items => exact hafter

theorem records_resolvePresent : ∀ (node : Option (Node σ)) (c : Cursor) (s : Effects σ),
    isPlainIfAny node →
    Records (fun e => ∃ child, node = some child ∧ child.Spots c s e) (resolvePresent node c) s
  | none, _, _, _ => .throw _
  | some node, c, s, h => (Node.records_resolve node c s h).mono fun _ hs => ⟨node, rfl, hs⟩

theorem records_resolveItem : ∀ (node : Option (Node σ)) (c : Cursor) (s : Effects σ),
    isPlainIfAny node →
    Records (fun e => ∃ child, node = some child ∧ child.Spots c s e) (resolveItem node c) s
  | none, _, _, _ => .pure _
  | some node, c, s, h => by
    have hnode := (Node.records_resolve node c s h).mono fun e hs =>
      show ∃ child, some node = some child ∧ child.Spots c s e from ⟨node, rfl, hs⟩
    exact .bind (.toResolve (.captured_of_isPlain h hnode)) fun _ _ _ => .pure _

theorem records_resolveItems (element : TypePosition) : ∀ (nodes : List (Option (Node σ)))
    (start : Nat) (c : Cursor) (s : Effects σ), areAllPlain nodes →
    Records (fun e => ∃ k child u, ItemStarts element nodes start k c child s u ∧
      child.Spots (c.atIndex (start + k)) u e) (resolveItems element.isNonNull nodes start c) s
  | [], _, _, _, _ => .pure _
  | node :: rest, start, c, s, ⟨hnode, hrest⟩ => by
    refine .bind ((records_resolveItem node (c.atIndex start) s hnode).mono fun e h => ?_)
      fun v u hu => ?_
    · obtain ⟨child, rfl, hspot⟩ := h
      exact ⟨0, child, s, ⟨rfl, [], rfl⟩, hspot⟩
    · cases hgo : element.isNonNull && v.isNull with
      | true => exact .pure _
      | false =>
        refine .bind ((records_resolveItems element rest (start + 1) c u hrest).mono
          fun e h => ?_) fun _ _ _ => .pure _
        obtain ⟨k, child, w, hstarts, hspot⟩ := h
        rw [Nat.add_assoc, Nat.add_comm 1] at hspot
        exact ⟨k + 1, child, w, hstarts.tail hu hgo, hspot⟩

end

theorem Node.records_resolveInto {node : Node σ} (h : node.IsPlain) (c : Cursor) (s : Effects σ) :
    Records (node.Spots c s) (node.resolveInto c) s :=
  .bind (.captured_of_isPlain h (node.records_resolve c s h)) fun _ _ _ => .pure _

end Running

/-- The path of every error in a response leads along fields that are selected one below the other,
from the operation on. The names among its segments are theirs, an index stands below a list and
counts its items, and the error is in the place of the last field. -/
theorem Service.exists_trail_of_mem_errors {service : Service σ} {op : Operation} {type : TypeDef}
    {node : Node σ} (hroot : service.root op = .ok (type, node)) (hplain : node.IsPlain)
    (doc : Document) (settings : Settings) (session : Session σ) {out : Output}
    (hout : ((service.executeOperation doc op settings).run.run session).1 = .ok out) :
    ∀ e ∈ out.errors, e.path ≠ [] → ∃ chain,
      node.Trail (op.cursor (op.scope service.schema doc settings) type) ⟨[], session.world⟩ e.path
        chain ∧
      e.path.filterMap PathSegment.key? = chain.map (·.responseName) ∧
      ∃ last, chain.getLast? = some last ∧ e.location = last.span.start := by
  intro e he _
  let c := op.cursor (op.scope service.schema doc settings) type
  let ended := (node.resolveInto c).run.run ⟨[], session.world⟩
  have hsegments : c.path.segments = [] := by
    show (op.cursor (op.scope service.schema doc settings) type).path.segments = []
    unfold Operation.cursor
    split <;> rfl
  have hended : ended.1.map (fun data => ⟨data, ExecutionError.sort ended.2.errors⟩) = .ok out :=
    (Service.run_executeOperation hroot doc settings session).symm.trans hout
  have herrors : e ∈ ended.2.errors := by
    cases hr : ended.1 with
    | error v =>
      rw [hr] at hended
      cases hended
    | ok data =>
      rw [hr] at hended
      cases hended
      exact List.mem_mergeSort.mp he
  obtain hbefore | ⟨path, chain, htrail, hpath, hlast⟩ :=
    Node.records_resolveInto hplain c ⟨[], session.world⟩ e herrors
  · cases hbefore
  · rw [hsegments, List.nil_append] at hpath
    subst hpath
    exact ⟨chain, htrail, htrail.filterMap_key?, hlast⟩

namespace Shelf

def title : FieldDef := ⟨lit "title", none, none, .named (lit "String") false, .current⟩

def books : FieldDef :=
  ⟨lit "books", none, none, .list (.named (lit "Book") false) none false, .current⟩

def schema : Schema :=
  ⟨[(lit "Query", .object ⟨lit "Query", none, [books], []⟩),
    (lit "Book", .object ⟨lit "Book", none, [title], []⟩), (lit "String", .scalar Scalars.string)],
    lit "Query", none, none, [], none⟩

/-- A book whose title is lost. -/
def book : Node Unit :=
  .mk (lit "Book") (lit "Book") (fun _ _ _ => .fail (.ofText (lit "lost"))) (fun _ => .none) .none

/-- A shelf with a gap before its only book. -/
def root : Node Unit :=
  .mk (lit "Query") (lit "Query") (fun _ _ _ => .resolveList [none, some book] .value)
    (fun _ => .none) .none

def service : Service Unit := ⟨schema, some root, none, none⟩

def titleHead : FieldHead :=
  ⟨some (.unlocated (lit "name")), .unlocated (lit "title"), none, none,
    ⟨⟨61, 0, 61⟩, ⟨72, 0, 72⟩⟩⟩

def titled : Fragment :=
  ⟨.unlocated (lit "Titled"), .unlocated (lit "Book"), none, [.field titleHead none], .unlocated⟩

def booksHead : FieldHead :=
  ⟨none, .unlocated (lit "books"), none, none, ⟨⟨8, 0, 8⟩, ⟨27, 0, 27⟩⟩⟩

/-- The books, and their titles by way of a fragment. -/
def operation : Operation :=
  ⟨.query, none, none, none,
    [.field booksHead (some [.spread ⟨.unlocated (lit "Titled"), none, .unlocated⟩])], .unlocated⟩

def document : Document := [.operation operation, .fragment titled]

def settings : Settings := ⟨[], none, false⟩

def lost : ExecutionError :=
  ⟨⟨61, 0, 61⟩, [.key (lit "books"), .index 1, .key (lit "name")], .ofText (lit "lost")⟩

def data : Value :=
  .object [(lit "books", .list [.null, .object [(lit "name", .null)]])]

theorem run_resolveInto : (root.resolveInto (operation.cursor
    (operation.scope schema document settings) (.object ⟨lit "Query", none, [books], []⟩))).run.run
      ⟨[], ()⟩ = (.ok data, ⟨[lost], ()⟩) := by
  rw [root, Node.resolveInto, Node.resolve]
  simp only [Action.run]
  rfl

theorem isPlain_root : root.IsPlain := by
  have hbook : book.IsPlain := ⟨fun _ _ _ => trivial, fun _ => rfl, rfl⟩
  exact ⟨fun _ _ _ => ⟨⟨trivial, hbook, trivial⟩, fun _ => trivial⟩, fun _ => rfl, rfl⟩

theorem exists_trail_lost :
    service.root operation = .ok (.object ⟨lit "Query", none, [books], []⟩, root) ∧ root.IsPlain ∧
    ((service.executeOperation document operation settings).run.run ⟨[], ()⟩).1 =
      .ok ⟨data, [lost]⟩ ∧
    ∃ chain, root.Trail (operation.cursor (operation.scope schema document settings)
        (.object ⟨lit "Query", none, [books], []⟩)) ⟨[], ()⟩ lost.path chain ∧
      [lit "books", lit "name"] = chain.map (·.responseName) ∧
      ∃ last, chain.getLast? = some last ∧ (⟨61, 0, 61⟩ : Position) = last.span.start := by
  have hroot : service.root operation =
      .ok (.object ⟨lit "Query", none, [books], []⟩, root) := rfl
  have hout : ((service.executeOperation document operation settings).run.run ⟨[], ()⟩).1 =
      .ok ⟨data, [lost]⟩ := by
    have hschema : service.schema = schema := rfl
    rw [Service.run_executeOperation hroot, hschema]
    dsimp only
    rw [run_resolveInto]
    simp [Except.map, ExecutionError.sort]
  exact ⟨hroot, isPlain_root, hout, Service.exists_trail_of_mem_errors hroot isPlain_root document
    settings ⟨[], ()⟩ hout lost (by simp) (by simp [lost])⟩

end Shelf

end GraphQL
