import GraphQL.Proofs.Execution.Collected
import GraphQL.Proofs.Execution.Violations

/-! What subscribing gives: for each field of the root, in flattened order, one stream or the one
error that it fails with. Errors that resolvers report on top of that are accounted for by the field
that is opened meanwhile. -/

namespace GraphQL

variable {σ : Type}

/-- The fields that selections come to on an object: those that are not excluded, in order, with what
fragments hold in their places where these apply to the object. -/
inductive Scope.Flattens (scope : Scope) (o : Text) : SelectionSet → List RootField → Prop where
  | nil : Flattens scope o [] []
  | field {head : FieldHead} {body : Option SelectionSet} {rest : SelectionSet}
      {fields : List RootField}
      (included : Directives.exclude scope.vars (head.directives.getD []) = .ok false)
      (hrest : Flattens scope o rest fields) :
      Flattens scope o (.field head body :: rest) (⟨head, body⟩ :: fields)
  | excluded {head : FieldHead} {body : Option SelectionSet} {rest : SelectionSet}
      {fields : List RootField}
      (excluded : Directives.exclude scope.vars (head.directives.getD []) = .ok true)
      (hrest : Flattens scope o rest fields) : Flattens scope o (.field head body :: rest) fields
  | spread {sp : Spread} {f : Fragment} {rest : SelectionSet} {inner fields : List RootField}
      (put : scope.spreadOn o sp = .ok (some f)) (h : Flattens scope o f.selections inner)
      (hrest : Flattens scope o rest fields) :
      Flattens scope o (.spread sp :: rest) (inner ++ fields)
  | spreadAside {sp : Spread} {rest : SelectionSet} {fields : List RootField}
      (aside : scope.spreadOn o sp = .ok none) (hrest : Flattens scope o rest fields) :
      Flattens scope o (.spread sp :: rest) fields
  | inline {head : InlineHead} {body rest : SelectionSet} {inner fields : List RootField}
      (entered : scope.entersInline o head = .ok true) (h : Flattens scope o body inner)
      (hrest : Flattens scope o rest fields) :
      Flattens scope o (.inline head body :: rest) (inner ++ fields)
  | inlineAside {head : InlineHead} {body rest : SelectionSet} {fields : List RootField}
      (aside : scope.entersInline o head = .ok false) (hrest : Flattens scope o rest fields) :
      Flattens scope o (.inline head body :: rest) fields

section Flattening

variable {scope : Scope} {o : Text}

theorem Scope.Flattens.unique {xs : SelectionSet} {fields fields' : List RootField}
    (h : scope.Flattens o xs fields) (h' : scope.Flattens o xs fields') : fields = fields' := by
  induction h generalizing fields' with
  | nil =>
    cases h'
    rfl
  | field included _ ih =>
    cases h' with
    | field _ hrest => rw [ih hrest]
    | excluded excluded => simp [included] at excluded
  | excluded excluded _ ih =>
    cases h' with
    | field included => simp [included] at excluded
    | excluded _ hrest => exact ih hrest
  | spread put _ _ ih ihrest =>
    cases h' with
    | spread put' h hrest =>
      obtain rfl := Option.some.inj (Except.ok.inj (put.symm.trans put'))
      rw [ih h, ihrest hrest]
    | spreadAside aside => simp [put] at aside
  | spreadAside aside _ ih =>
    cases h' with
    | spread put => simp [put] at aside
    | spreadAside _ hrest => exact ih hrest
  | inline entered _ _ ih ihrest =>
    cases h' with
    | inline _ h hrest => rw [ih h, ihrest hrest]
    | inlineAside aside => simp [entered] at aside
  | inlineAside aside _ ih =>
    cases h' with
    | inline entered => simp [entered] at aside
    | inlineAside _ hrest => exact ih hrest

namespace RootField

variable {expand : Expand}

mutual

theorem flattens_ofSelection
    (hexpand : ∀ f fields, expand f = .ok fields → scope.Flattens o f.selections fields) :
    ∀ (x : Selection) (first : List RootField), ofSelection scope o expand x = .ok first →
      ∀ rest others, scope.Flattens o rest others →
        scope.Flattens o (x :: rest) (first ++ others)
  | .field head body, first, h, rest, others, hrest => by
    rw [ofSelection_eq] at h
    cases hx : Directives.exclude scope.vars (head.directives.getD []) with
    | error v => simp [Selection.directives, hx, Except.bind] at h
    | ok excluded =>
      cases excluded with
      | true =>
        obtain rfl : [] = first := by simpa [Selection.directives, hx, Except.bind] using h
        exact .excluded hx hrest
      | false =>
        obtain rfl : [⟨head, body⟩] = first := by
          simpa [Selection.directives, hx, Except.bind, enter] using h
        exact .field hx hrest
  | .spread sp, first, h, rest, others, hrest => by
    rw [ofSelection_spread] at h
    rcases hput : scope.spreadOn o sp with v | _ | f
    · simp [hput, Except.bind] at h
    · obtain rfl : [] = first := by simpa [hput, Except.bind] using h
      exact .spreadAside hput hrest
    · rw [hput] at h
      exact .spread hput (hexpand f first h) hrest
  | .inline head body, first, h, rest, others, hrest => by
    rw [ofSelection_inline] at h
    rcases hentered : scope.entersInline o head with v | _ | _
    · simp [hentered, Except.bind] at h
    · obtain rfl : [] = first := by simpa [hentered, Except.bind] using h
      exact .inlineAside hentered hrest
    · rw [hentered] at h
      exact .inline hentered (flattens_ofSelections hexpand body first h) hrest

theorem flattens_ofSelections
    (hexpand : ∀ f fields, expand f = .ok fields → scope.Flattens o f.selections fields) :
    ∀ (xs : SelectionSet) (fields : List RootField),
      ofSelections scope o expand xs = .ok fields → scope.Flattens o xs fields
  | [], fields, h => by
    obtain rfl : [] = fields := Except.ok.inj h
    exact .nil
  | x :: rest, fields, h => by
    obtain ⟨first, others, hfirst, hothers, rfl⟩ := exists_of_ofSelections_cons h
    exact flattens_ofSelection hexpand x first hfirst rest others
      (flattens_ofSelections hexpand rest others hothers)

end

theorem flattens_expandUpTo (depth : Nat) : ∀ f fields,
    expandUpTo scope o depth f = .ok fields → scope.Flattens o f.selections fields := by
  induction depth with
  | zero => exact fun _ _ h => nomatch h
  | succ depth ih => exact fun f fields h => flattens_ofSelections ih f.selections fields h

/-- The fields that are collected are all that selections come to, and no others. -/
theorem flattens_iff_of_ofSelectionSet {xs : SelectionSet} {fields : List RootField}
    (h : ofSelectionSet scope o xs = .ok fields) (others : List RootField) :
    scope.Flattens o xs others ↔ others = fields := by
  have hfields : scope.Flattens o xs fields :=
    flattens_ofSelections (flattens_expandUpTo _) xs fields h
  constructor
  · exact fun hothers => hothers.unique hfields
  · rintro rfl
    exact hfields

end RootField

end Flattening

section Growth

/-- What a resolver records are errors that it may fail with or report. -/
theorem Action.extends_run (a : Action σ) (c : Cursor) (s : Effects σ) :
    s.Extends (a.MayFailWith ·) ((a.run c).run.run s).2 := by
  obtain ⟨ms, hruns⟩ := Action.follows a c s
  obtain ⟨path, hrun, hlast⟩ := hruns.exists_isRun
  have hrelays : (a.job c).Relays c.scope.concurrent (a.MayFailWith ·) :=
    Action.relays_job a c (fun _ => id) rfl
  exact (hrelays.of_isRun hrun _ (List.mem_of_getLast? hlast)).2

end Growth

namespace EventStream

/-- What pulling a number of times gives, one after another. -/
def pulls : Nat → EventStream σ → StateM (Session σ) (List (Except Violation (Option Event)))
  | 0, _ => return []
  | n + 1, s => do
    let (next, event) ← s.pull
    return event :: (← pulls n next)

theorem run_pulls_succ (n : Nat) (s : EventStream σ) (session : Session σ) :
    (s.pulls (n + 1)).run session =
      let ((next, event), session') := s.pull.run session
      let (events, session'') := (next.pulls n).run session'
      (event :: events, session'') := rfl

/-- A stream that has come to its end gives nothing any more. -/
theorem run_pulls_of_ended (n : Nat) {s : EventStream σ}
    (h : s.exhausted = true ∨ s.events s.position = none) (session : Session σ) :
    (s.pulls n).run session = (List.replicate n (.ok none), session) := by
  induction n generalizing s with
  | zero => rfl
  | succ n ih =>
    obtain ⟨next, hpull, hnext⟩ : ∃ next, s.pull.run session = ((next, .ok none), session) ∧
        next.exhausted = true := by
      obtain ⟨c, events, position, exhausted⟩ := s
      cases exhausted with
      | true => exact ⟨_, rfl, rfl⟩
      | false =>
        have hevents : events position = none := by simpa using h
        refine ⟨⟨c, events, position, true⟩, ?_, rfl⟩
        unfold pull
        dsimp only
        rw [hevents]
        rfl
    rw [run_pulls_succ, hpull]
    dsimp only
    rw [ih (.inl hnext)]
    rfl

/-- A stream of one item gives it and then nothing, whatever the session. -/
theorem run_pulls_single (c : Cursor) (v : Value) (n : Nat) (session : Session σ) :
    ((single c v).pulls (n + 1)).run session =
      (.ok (some ⟨v, []⟩) :: List.replicate n (.ok none), session) := by
  have hpull : (single c v : EventStream σ).pull.run session =
      (({ (single c v : EventStream σ) with position := 1 }, .ok (some ⟨v, []⟩)), session) := by
    have hrun : (single c v : EventStream σ).pull.run session =
        (({ (single c v : EventStream σ) with position := 1 },
            .ok (some ⟨v, ExecutionError.sort []⟩)),
          ⟨session.messages ++ [], session.world⟩) := rfl
    rw [hrun, List.append_nil, ExecutionError.sort, List.mergeSort_nil]
  rw [run_pulls_succ, hpull]
  dsimp only
  rw [run_pulls_of_ended n (.inr rfl)]

end EventStream

/-- How the stream of a field of the root is opened: the errors reported meanwhile, and the stream or
the error that the field fails with. -/
structure Opening (σ : Type) where
  field : RootField
  reported : List ExecutionError
  outcome : Except FieldError (EventStream σ)

namespace Opening

/-- The stream under the response key, if there is one. -/
def streams (o : Opening σ) : List (Text × EventStream σ) :=
  match o.outcome with
  | .ok stream => [(o.field.head.responseName, stream)]
  | .error _ => []

/-- The error of a field that fails: at the field's start, with the response key as its path. -/
def thrown (o : Opening σ) : List ExecutionError :=
  match o.outcome with
  | .ok _ => []
  | .error e => [⟨o.field.head.span.start, [.key o.field.head.responseName], e⟩]

end Opening

namespace SubscriptionRoot

/-- What a root gives for a field with a declaration, at its cursor. -/
def source (root : SubscriptionRoot σ) (c : Cursor) (f : RootField) (declaration : FieldDef)
    (sub : Cursor) : EventSource σ :=
  root.stream f.head.name.value (.ofField c.scope.vars f.head declaration.arguments) sub

/-- Opening the stream of a field, from one state to another. -/
inductive Opens (root : SubscriptionRoot σ) (c : Cursor) (type : TypeDef) :
    Effects σ → Opening σ → Effects σ → Prop where
  | typename {f : RootField} (named : f.head.name.value = lit "__typename") (s : Effects σ) :
      Opens root c type s ⟨f, [], .ok (.single c (.ofText root.objectName))⟩ s
  | stream {f : RootField} {declaration : FieldDef} {sub : Cursor} {s s' : Effects σ} {v : Value}
      {reported : List ExecutionError} (data : f.head.name.value ≠ lit "__typename")
      (declared : type.field? f.head.name.value = some declaration)
      (entered : c.atField ⟨f.head, declaration⟩ f.selections = .ok sub)
      (opened : ((root.source c f declaration sub).opening.run sub).run.run s = (.ok v, s'))
      (records : s'.errors = s.errors ++ reported) :
      Opens root c type s ⟨f, reported, .ok (.start sub (root.source c f declaration sub).events)⟩ s'
  | failure {f : RootField} {declaration : FieldDef} {sub : Cursor} {s s' : Effects σ}
      {e : FieldError} {reported : List ExecutionError}
      (data : f.head.name.value ≠ lit "__typename")
      (declared : type.field? f.head.name.value = some declaration)
      (entered : c.atField ⟨f.head, declaration⟩ f.selections = .ok sub)
      (failed : ((root.source c f declaration sub).opening.run sub).run.run s =
        (.error (.failure e), s'))
      (records : s'.errors = s.errors ++ reported) :
      Opens root c type s ⟨f, reported, .error e⟩ (s'.record sub sub.location e)

/-- Opening the streams of fields one after another. -/
inductive OpensInTurn (root : SubscriptionRoot σ) (c : Cursor) (type : TypeDef) :
    Effects σ → List (Opening σ) → Effects σ → Prop where
  | nil (s : Effects σ) : OpensInTurn root c type s [] s
  | cons {s s' s'' : Effects σ} {o : Opening σ} {rest : List (Opening σ)}
      (h : Opens root c type s o s') (hrest : OpensInTurn root c type s' rest s'') :
      OpensInTurn root c type s (o :: rest) s''

variable {root : SubscriptionRoot σ} {c : Cursor} {type : TypeDef}

theorem openField_of_declared {f : RootField} {declaration : FieldDef} {sub : Cursor}
    (data : f.head.name.value ≠ lit "__typename")
    (declared : type.field? f.head.name.value = some declaration)
    (entered : c.atField ⟨f.head, declaration⟩ f.selections = .ok sub) :
    root.openField c type f =
      (((root.source c f declaration sub).opening.run sub).captured sub sub.location >>= fun
        | some _ => return [(f.head.responseName,
            .start sub (root.source c f declaration sub).events)]
        | none => return []) := by
  unfold openField
  simp only [beq_false_of_ne data, Bool.false_eq_true, if_false, declared, entered]
  rfl

theorem exists_opens_of_openField {f : RootField} {s s' : Effects σ}
    {streams : List (Text × EventStream σ)}
    (h : (root.openField c type f).run.run s = (.ok streams, s')) :
    ∃ o, o.field = f ∧ root.Opens c type s o s' ∧ streams = o.streams := by
  by_cases hn : f.head.name.value = lit "__typename"
  · unfold openField at h
    simp only [hn, beq_self_eq_true, if_true] at h
    obtain ⟨hstreams, rfl⟩ := Prod.mk.inj h
    obtain rfl := Except.ok.inj hstreams
    exact ⟨_, rfl, .typename hn s, rfl⟩
  obtain ⟨declaration, sub, hd, hat⟩ : ∃ declaration sub,
      type.field? f.head.name.value = some declaration ∧
      c.atField ⟨f.head, declaration⟩ f.selections = .ok sub := by
    unfold openField at h
    simp only [beq_false_of_ne hn, Bool.false_eq_true, if_false] at h
    cases hd : type.field? f.head.name.value with
    | none =>
      simp only [hd] at h
      cases (Prod.mk.inj h).1
    | some declaration =>
      cases hat : c.atField ⟨f.head, declaration⟩ f.selections with
      | error v =>
        simp only [hd, hat] at h
        cases (Prod.mk.inj h).1
      | ok sub => exact ⟨declaration, sub, rfl, hat⟩
  rw [openField_of_declared hn hd hat, run_bind, Resolve.run_captured] at h
  obtain ⟨reported, hrecords, -⟩ :=
    Action.extends_run (root.source c f declaration sub).opening sub s
  rcases hr : ((root.source c f declaration sub).opening.run sub).run.run s with ⟨(e | v) | v, t⟩
  all_goals rw [hr] at h hrecords
  · obtain ⟨hstreams, rfl⟩ := Prod.mk.inj h
    obtain rfl := Except.ok.inj hstreams
    exact ⟨_, rfl, .failure hn hd hat hr hrecords, rfl⟩
  · cases (Prod.mk.inj h).1
  · obtain ⟨hstreams, rfl⟩ := Prod.mk.inj h
    obtain rfl := Except.ok.inj hstreams
    exact ⟨_, rfl, .stream hn hd hat hr hrecords, rfl⟩

theorem exists_opensInTurn_of_mapM {fields : List RootField} {s s' : Effects σ}
    {streams : List (List (Text × EventStream σ))}
    (h : (fields.mapM (root.openField c type)).run.run s = (.ok streams, s')) :
    ∃ openings : List (Opening σ), openings.map Opening.field = fields ∧
      root.OpensInTurn c type s openings s' ∧ streams = openings.map Opening.streams := by
  induction fields generalizing s streams with
  | nil =>
    obtain ⟨hstreams, rfl⟩ := Prod.mk.inj h
    obtain rfl := Except.ok.inj hstreams
    exact ⟨[], rfl, .nil s, rfl⟩
  | cons f rest ih =>
    rw [List.mapM_cons, run_bind] at h
    rcases hr : (root.openField c type f).run.run s with ⟨v | first, t⟩
    all_goals simp only [hr] at h
    · cases (Prod.mk.inj h).1
    rw [run_bind] at h
    rcases hr' : (rest.mapM (root.openField c type)).run.run t with ⟨v | others, t'⟩
    all_goals simp only [hr'] at h
    · cases (Prod.mk.inj h).1
    obtain ⟨hstreams, rfl⟩ := Prod.mk.inj h
    obtain rfl := Except.ok.inj hstreams
    obtain ⟨o, rfl, hopens, rfl⟩ := exists_opens_of_openField hr
    obtain ⟨openings, rfl, hrest, rfl⟩ := ih hr'
    exact ⟨o :: openings, rfl, .cons hopens hrest, rfl⟩

theorem exists_opensInTurn_of_openStreams {selections : SelectionSet} {s s' : Effects σ}
    {streams : List (Text × EventStream σ)}
    (h : (root.openStreams c type selections).run.run s = (.ok streams, s')) :
    ∃ fields openings, RootField.ofSelectionSet c.scope root.objectName selections = .ok fields ∧
      openings.map Opening.field = fields ∧ root.OpensInTurn c type s openings s' ∧
      streams = openings.flatMap Opening.streams := by
  unfold openStreams at h
  cases hfields : RootField.ofSelectionSet c.scope root.objectName selections with
  | error v =>
    rw [hfields] at h
    cases (Prod.mk.inj h).1
  | ok fields =>
    have hcollected (k : List RootField → Run σ (List (Text × EventStream σ))) :
        (Run.ofExcept (.ok fields) >>= k) = k fields := rfl
    rw [hfields, hcollected, run_bind] at h
    rcases hr : (fields.mapM (root.openField c type)).run.run s with ⟨v | opened, t⟩
    all_goals rw [hr] at h
    · cases (Prod.mk.inj h).1
    obtain ⟨hstreams, rfl⟩ := Prod.mk.inj h
    obtain ⟨openings, hof, hopens, rfl⟩ := exists_opensInTurn_of_mapM hr
    exact ⟨fields, openings, rfl, hof, hopens, (Except.ok.inj hstreams).symm⟩

/-- What is recorded while a stream is opened at the root is reported, or thrown by the field. -/
theorem Opens.errors (hc : c.path.segments = []) {s s' : Effects σ} {o : Opening σ}
    (h : root.Opens c type s o s') : s'.errors = s.errors ++ (o.reported ++ o.thrown) := by
  cases h with
  | typename => simp [Opening.thrown]
  | stream _ _ _ _ records => simp [Opening.thrown, records]
  | failure _ _ entered _ records =>
    obtain ⟨position, -, rfl⟩ := Cursor.exists_of_atField entered
    simp [Opening.thrown, Effects.record, records, Cursor.location, FieldPath.field, hc]

theorem OpensInTurn.errors (hc : c.path.segments = []) {s s' : Effects σ}
    {openings : List (Opening σ)} (h : root.OpensInTurn c type s openings s') :
    s'.errors = s.errors ++ openings.flatMap fun o => o.reported ++ o.thrown := by
  induction h with
  | nil s => simp
  | cons h _ ih => rw [ih, h.errors hc, List.flatMap_cons, List.append_assoc]

/-- A field that tells the type of the root opens a stream of one item. -/
theorem OpensInTurn.single_of_typename {s s' : Effects σ} {openings : List (Opening σ)}
    (h : root.OpensInTurn c type s openings s') : ∀ o ∈ openings,
      o.field.head.name.value = lit "__typename" →
        o.outcome = .ok (.single c (.ofText root.objectName)) := by
  induction h with
  | nil => exact fun _ ho => (List.not_mem_nil ho).elim
  | cons h _ ih =>
    refine List.forall_mem_cons.mpr ⟨fun hname => ?_, ih⟩
    cases h with
    | typename => rfl
    | stream data | failure data => exact absurd hname data

end SubscriptionRoot

/-- Subscribing gives streams only if the streams of a root have been opened. -/
theorem Service.exists_of_subscribeOperation {service : Service σ} {op : Operation} {doc : Document}
    {settings : Settings} {session : Session σ} {subscription : Subscription σ}
    (h : ((service.subscribeOperation doc op settings).run.run session).1 = .ok subscription) :
    ∃ type root s', service.subscriptionRoot op = .ok (type, root) ∧
      (root.openStreams (op.cursor (op.scope service.schema doc
          { settings with concurrent := false }) type) type op.selections).run.run
        ⟨[], session.world⟩ = (.ok subscription.streams, s') ∧
      subscription.errors = ExecutionError.sort s'.errors := by
  unfold subscribeOperation at h
  cases hroot : service.subscriptionRoot op with
  | error v =>
    rw [hroot] at h
    cases h
  | ok found =>
    obtain ⟨type, root⟩ := found
    have hentered (k : TypeDef × SubscriptionRoot σ → Engine σ (Subscription σ)) :
        (Engine.ofExcept (.ok (type, root)) >>= k) = k (type, root) := rfl
    rw [hroot, hentered] at h
    dsimp only at h
    rw [run_bind, Engine.run_say] at h
    dsimp only at h
    rw [run_bind, Engine.run_perform] at h
    rcases hr : (root.openStreams (op.cursor (op.scope service.schema doc
        { settings with concurrent := false }) type) type op.selections).run.run
        ⟨[], session.world⟩ with ⟨v | streams, s'⟩
    all_goals rw [hr] at h
    · cases h
    · obtain rfl := Except.ok.inj h
      exact ⟨type, root, s', rfl, hr, rfl⟩

theorem Opening.streams_or_thrown (o : Opening σ) :
    (∃ stream, o.outcome = .ok stream ∧ o.streams = [(o.field.head.responseName, stream)] ∧
      o.thrown = []) ∨
    ∃ e, o.outcome = .error e ∧ o.streams = [] ∧
      o.thrown = [⟨o.field.head.span.start, [.key o.field.head.responseName], e⟩] := by
  obtain ⟨f, reported, e | stream⟩ := o
  · exact .inr ⟨e, rfl, rfl, rfl⟩
  · exact .inl ⟨stream, rfl, rfl, rfl⟩

/-- Subscribing, where it gives streams, accounts for each field of the root, in flattened order: it
gives one stream under its response key, or one error at its start with the response key as its path.
There are no other streams, and no other errors but those that resolvers report meanwhile. A field
that tells the type of the root gives a stream of one item. -/
theorem Service.subscribeOperation_accounts {service : Service σ} {op : Operation} {doc : Document}
    {settings : Settings} {session : Session σ} {subscription : Subscription σ}
    (h : ((service.subscribeOperation doc op settings).run.run session).1 = .ok subscription) :
    ∃ type root fields openings s', service.subscriptionRoot op = .ok (type, root) ∧
      (∀ others, (op.scope service.schema doc { settings with concurrent := false }).Flattens
        root.objectName op.selections others ↔ others = fields) ∧
      root.OpensInTurn (op.cursor (op.scope service.schema doc
          { settings with concurrent := false }) type) type ⟨[], session.world⟩ openings s' ∧
      openings.map Opening.field = fields ∧
      subscription.streams = openings.flatMap Opening.streams ∧
      subscription.errors =
        ExecutionError.sort (openings.flatMap fun o => o.reported ++ o.thrown) ∧
      ∀ o ∈ openings,
        ((∃ stream, o.outcome = .ok stream ∧ o.streams = [(o.field.head.responseName, stream)] ∧
          o.thrown = []) ∨
        ∃ e, o.outcome = .error e ∧ o.streams = [] ∧
          o.thrown = [⟨o.field.head.span.start, [.key o.field.head.responseName], e⟩]) ∧
        (o.field.head.name.value = lit "__typename" → ∃ stream, o.outcome = .ok stream ∧
          ∀ n later, (stream.pulls (n + 1)).run later =
            (.ok (some ⟨.ofText root.objectName, []⟩) :: List.replicate n (.ok none), later)) := by
  obtain ⟨type, root, s', hroot, hopen, herrors⟩ := exists_of_subscribeOperation h
  obtain ⟨fields, openings, hfields, hof, hopens, hstreams⟩ :=
    SubscriptionRoot.exists_opensInTurn_of_openStreams hopen
  rw [Operation.scope_cursor] at hfields
  refine ⟨type, root, fields, openings, s', hroot,
    RootField.flattens_iff_of_ofSelectionSet hfields, hopens, hof, hstreams, ?_, fun o ho => ?_⟩
  · have hpath : (op.cursor (op.scope service.schema doc { settings with concurrent := false })
        type).path.segments = [] := by
      rw [Operation.path_cursor]
      rfl
    rw [herrors, hopens.errors hpath, List.nil_append]
  · refine ⟨o.streams_or_thrown, fun hname => ?_⟩
    exact ⟨_, hopens.single_of_typename o ho hname, EventStream.run_pulls_single _ _⟩

namespace Feed

def subscription : ObjectDef :=
  ⟨lit "Subscription", none, [⟨lit "ticks", none, none, .named (lit "Int") false, .current⟩,
    ⟨lit "broken", none, none, .named (lit "Int") false, .current⟩], []⟩

def schema : Schema :=
  ⟨[(lit "Int", .scalar Scalars.int), (lit "Subscription", .object subscription)], lit "Query",
    none, some (lit "Subscription"), [], none⟩

/-- One field gives the numbers from zero on, and the other one fails. -/
def root : SubscriptionRoot Unit where
  typeName := lit "Subscription"
  objectName := lit "Subscription"
  stream name _ _ :=
    if name == lit "ticks" then ⟨.value .null, fun i => some (.value (.scalar (.int (.ofNat i))))⟩
    else ⟨.fail (.ofText (lit "no stream")), fun _ => none⟩

def service : Service Unit := ⟨schema, none, none, some root⟩

def operation : Operation :=
  ⟨.subscription, none, none, none, [.ofName (lit "broken") none, .ofName (lit "__typename") none,
    .inFragment (some (lit "Subscription")) [.ofName (lit "ticks") none]], .unlocated⟩

theorem accounts_subscribeOperation :
    ∃ (subscription : Subscription Unit) (openings : List (Opening Unit)),
      ((service.subscribeOperation [.operation operation] operation ⟨[], none, false⟩).run.run
        ⟨[], ()⟩).1 = .ok subscription ∧
      openings.map (·.field.head.name.value) = [lit "broken", lit "__typename", lit "ticks"] ∧
      subscription.streams.map Prod.fst = [lit "__typename", lit "ticks"] ∧
      subscription.streams = openings.flatMap Opening.streams ∧
      subscription.errors =
        ExecutionError.sort (openings.flatMap fun o => o.reported ++ o.thrown) := by
  obtain ⟨subscription, hrun, hkeys⟩ : ∃ subscription,
      ((service.subscribeOperation [.operation operation] operation ⟨[], none, false⟩).run.run
        ⟨[], ()⟩).1 = .ok subscription ∧
      subscription.streams.map Prod.fst = [lit "__typename", lit "ticks"] := ⟨_, rfl, rfl⟩
  obtain ⟨type, root', fields, openings, s', hroot, hfields, -, hof, hstreams, herrors, -⟩ :=
    Service.subscribeOperation_accounts hrun
  obtain ⟨-, rfl⟩ := Prod.mk.inj (Except.ok.inj hroot)
  obtain ⟨collected, hcollected, hnames⟩ : ∃ collected,
      RootField.ofSelectionSet
        (operation.scope schema [.operation operation] ⟨[], none, false⟩) (lit "Subscription")
        operation.selections = .ok collected ∧
      collected.map (·.head.name.value) = [lit "broken", lit "__typename", lit "ticks"] :=
    ⟨_, rfl, rfl⟩
  obtain rfl : fields = collected :=
    (RootField.flattens_iff_of_ofSelectionSet hcollected fields).mp ((hfields fields).mpr rfl)
  refine ⟨subscription, openings, hrun, ?_, hkeys, hstreams, herrors⟩
  rw [← hnames, ← hof, List.map_map]
  rfl

end Feed

end GraphQL
