import Mathlib.Data.List.Induction
import GraphQL.Proofs.Execution.Constants
import GraphQL.Proofs.Execution.Requests

/-! The value of an argument, from what is written and what is declared. It is that of the last
argument of its name with the values of variables put in; or, where that is absent or null, the
default that the field declares. Resolvers are given these values, and look-ahead shows them. -/

namespace GraphQL

variable {σ : Type}

namespace FieldArguments

/-- The default of an argument. Of several under one name that is the first that is not null. -/
def default? (declared : List ArgumentDef) (name : Text) : Option InputValue :=
  ((defaultsOf declared name).find? (!·.isNull)).or (defaultsOf declared name).head?

theorem settle_eq (v : Option InputValue) (default : InputValue) :
    settle v default = if v.all InputValue.isNull then some default else v := by
  rcases v with _ | v
  · rfl
  · cases v <;> rfl

/-- Defaults that are filled in one after another come to the first that is not null. -/
theorem foldl_settle (defaults : List InputValue) (v : Option InputValue) :
    defaults.foldl settle v =
      if v.all InputValue.isNull then ((defaults.find? (!·.isNull)).or defaults.head?).or v
      else v := by
  have hnull (d : InputValue) (hd : d.isNull = true) : d = .null := by
    cases d <;> first | rfl | exact nomatch hd
  induction defaults generalizing v with
  | nil => simp
  | cons d rest ih =>
    rw [List.foldl_cons, ih, settle_eq]
    by_cases hv : v.all InputValue.isNull = true
    · cases hd : d.isNull with
      | false => simp [hv, hd]
      | true =>
        -- the null that stands first gives way to what comes later, or to another null
        have hhead (hrest : rest.find? (!·.isNull) = none) : rest.head?.getD d = d := by
          cases rest with
          | nil => rfl
          | cons e rest =>
            have he : e.isNull = true := by simpa using List.find?_eq_none.mp hrest e
            rw [List.head?_cons, Option.getD_some, hnull e he, hnull d hd]
        cases hrest : rest.find? (!·.isNull) with
        | some e => simp [hv, hd, hrest]
        | none => simp [hv, hd, hrest, hhead hrest]
    · simp [hv]

theorem defaultsOf_of_mem {declared : List ArgumentDef} (h : (declared.map (·.name)).Nodup)
    {arg : ArgumentDef} (harg : arg ∈ declared) :
    defaultsOf declared arg.name = arg.default.toList := by
  induction declared with
  | nil => cases harg
  | cons first rest ih =>
    obtain ⟨hfirst, hrest⟩ := List.nodup_cons.mp h
    rw [defaultsOf_cons]
    rcases List.mem_cons.mp harg with rfl | harg
    · have hothers : defaultsOf rest arg.name = [] := by
        refine List.filterMap_eq_nil_iff.mpr fun other hother => if_neg fun hname => ?_
        exact hfirst (List.mem_map.mpr ⟨other, hother, hname⟩)
      rw [hothers]
      cases hd : arg.default <;> simp [defaultsOf, hd]
    · have hname : first.name ≠ arg.name :=
        fun hname => hfirst (List.mem_map.mpr ⟨arg, harg, hname.symm⟩)
      rw [ih hrest harg]
      simp [defaultsOf, hname]

/-- A name that is declared once has the default of its declaration. -/
theorem default?_of_mem {declared : List ArgumentDef} (h : (declared.map (·.name)).Nodup)
    {arg : ArgumentDef} (harg : arg ∈ declared) : default? declared arg.name = arg.default := by
  unfold default?
  rw [defaultsOf_of_mem h harg]
  cases arg.default with
  | none => rfl
  | some d => cases hd : d.isNull <;> simp [hd]

end FieldArguments

namespace FieldHead

variable (r : InputValue → Option InputValue) (head : FieldHead)

/-- The value of an argument as it is written: that of the last one of the name. A variable without
a value comes to null. -/
def written? (name : Text) : Option InputValue :=
  (((head.arguments.map (·.value)).getD []).reverse.find? (·.1.value == name)).map
    fun arg => (r arg.2.value).getD .null

/-- The value of an argument: as it is written, or the declared default if that is absent or
null. -/
def argument? (declared : List ArgumentDef) (name : Text) : Option InputValue :=
  if (head.written? r name).all InputValue.isNull then
    (FieldArguments.default? declared name).or (head.written? r name)
  else head.written? r name

end FieldHead

namespace FieldArguments

variable {vars : Variables} {r : InputValue → Option InputValue}

theorem get?_ofWritten (hr : ∀ v : InputValue, v.substitute vars = r v) (head : FieldHead)
    (name : Text) :
    Keyed.get? (ofWritten vars head.arguments) name = head.written? r name := by
  unfold ofWritten FieldHead.written?
  cases head.arguments with
  | none => rfl
  | some args =>
    obtain ⟨args, span⟩ := args
    dsimp only [Option.map_some, Option.getD_some]
    induction args using List.reverseRecOn with
    | nil => rfl
    | append_singleton args arg ih =>
      rw [List.foldl_concat, List.reverse_concat, Keyed.get?_put, ih, List.find?_cons]
      by_cases hname : arg.1.value = name
      · simp [hname, hr]
      · rw [if_neg (Ne.symm hname), beq_false_of_ne hname]

/-- The arguments of a field have the values that are written and declared. -/
theorem get?_ofField (hr : ∀ v : InputValue, v.substitute vars = r v) (head : FieldHead)
    (declared : Option (List ArgumentDef)) (name : Text) :
    Keyed.get? (ofField vars head declared) name = head.argument? r (declared.getD []) name := by
  unfold ofField FieldHead.argument? default?
  rw [get?_withDefaults, foldl_settle, get?_ofWritten hr]

end FieldArguments

/-- Arguments with the values that are written and declared. -/
def FieldArguments.Follow (r : InputValue → Option InputValue) (head : FieldHead)
    (declaration : Option FieldDef) (args : FieldArguments) : Prop :=
  ∀ name, Keyed.get? args name =
    head.argument? r ((declaration.bind FieldDef.arguments).getD []) name

/-- Look-ahead from a cursor shows such arguments: those of the field itself and, at all depths, of
the fields below it as the types declare them that they are selected on. -/
def Cursor.ShowsArguments (r : InputValue → Option InputValue) (c : Cursor) : Prop :=
  ∀ l, c.lookAhead = .ok l →
    (∀ f, c.field = some f → l.name = f.head.name.value ∧
      l.arguments.Follow r f.head (some f.declaration)) ∧
    ∀ child ∈ l.children, child.SeenIn c.scope (FieldArguments.Follow r)
      (some c.currentType.innermost) (c.selections.getD [])

/-- A call of a field that is written in an operation or in a fragment of its document, and that a
type of the schema declares. It is given such arguments, and looks ahead at such arguments. -/
structure FieldTask.HasArguments (s : Schema) (op : Operation) (doc : Document)
    (r : InputValue → Option InputValue) (t : FieldTask) (f : SelectedField) : Prop where
  field : t.cursor.field = some f
  written : op.Contains doc.fragments (.field f.head t.cursor.selections)
  declared : ∃ name type, s.type? name = some type ∧
    type.field? f.head.name.value = some f.declaration
  key : t.key = f.head.responseName
  name : t.name = f.head.name.value
  arguments : t.arguments.Follow r f.head (some f.declaration)
  shown : t.cursor.ShowsArguments r

/-- A call that is given such arguments if it is one of a field, and looks ahead at such
arguments. -/
def Call.HasArguments (s : Schema) (op : Operation) (doc : Document)
    (r : InputValue → Option InputValue) : Call → Prop
  | field t => ∃ f, t.HasArguments s op doc r f
  | into n => n.cursor.ShowsArguments r
  | whole c => c.ShowsArguments r

/-- A place where the values of variables are put in so. -/
structure Cursor.Substitutes (s : Schema) (r : InputValue → Option InputValue) (c : Cursor) :
    Prop where
  schema : c.scope.schema = s
  values : ∀ v : InputValue, v.substitute c.scope.vars = r v

section Places

variable {s : Schema} {r : InputValue → Option InputValue}

theorem Cursor.Substitutes.showsArguments {c : Cursor} (hc : c.Substitutes s r) :
    c.ShowsArguments r := by
  have hfollow (head : FieldHead) (declaration : Option FieldDef) :
      FieldArguments.Follow r head declaration
        (.ofField c.scope.vars head (declaration.bind FieldDef.arguments)) :=
    FieldArguments.get?_ofField hc.values head _
  intro l hl
  refine ⟨fun f hf => ?_, seenIn_of_lookAhead hfollow hl⟩
  have hfield := eq_of_lookAhead hl
  rw [hf] at hfield
  rw [hfield]
  exact ⟨rfl, hfollow f.head (some f.declaration)⟩

/-- The values of variables stay the same wherever execution goes on. -/
theorem Cursor.carries_substitutes (op : Operation) (doc : Document) :
    Cursor.Carries op doc (Substitutes s r) (Call.HasArguments s op doc r) where
  whole _ hc := hc.showsArguments
  into _ hn := hn.showsArguments
  atIndex _ _ hc := ⟨hc.schema, hc.values⟩
  atInline _ _ _ hc := ⟨hc.schema, hc.values⟩
  atField c name type head declaration body below hc hwritten htype hd hat := by
    obtain ⟨position, -, rfl⟩ := exists_of_atField hat
    have hbelow : Substitutes s r ⟨c.scope, body, position,
      c.path.field head.responseName head.span.start, some ⟨head, declaration⟩, false⟩ :=
      ⟨hc.schema, hc.values⟩
    have harguments := FieldArguments.get?_ofField hc.values head declaration.arguments
    have hdeclared : ∃ name type, s.type? name = some type ∧
        type.field? head.name.value = some declaration := ⟨name, type, hc.schema ▸ htype, hd⟩
    exact ⟨⟨⟨head, declaration⟩, rfl, hwritten, hdeclared, rfl, rfl, harguments,
      hbelow.showsArguments⟩, hbelow⟩

end Places

/-- Argument values. There is one way to put in the values of variables, where a variable has the
value that is supplied for it, null included, or else the first default that is declared for its
name. With it, whatever is called when an operation is executed is given the arguments that are
written and declared, and looks ahead at just those. Defaults of variables that are given twice are
given once. -/
theorem Service.calls_haveArguments (service : Service σ) (doc : Document) (op : Operation)
    (settings : Settings) :
    (∃ r, InputValue.Replaces (op.variableValue? settings.vars) r ∧
      (∀ r', InputValue.Replaces (op.variableValue? settings.vars) r' → r' = r) ∧
      service.CallsOnly (Call.HasArguments service.schema op doc r) doc op settings) ∧
    op.withDefaults (op.withDefaults settings.vars) = op.withDefaults settings.vars ∧
    service.executeOperation doc op (op.settled settings) =
      service.executeOperation doc op settings ∧
    service.subscribeOperation doc op (op.settled settings) =
      service.subscribeOperation doc op settings := by
  have hreplaces := InputValue.replaces_substitute (op.get?_withDefaults settings.vars)
  refine ⟨⟨_, hreplaces, fun r' h => h.unique hreplaces, ?_⟩, op.withDefaults_withDefaults _,
    executeOperation_settled service doc op settings,
    subscribeOperation_settled service doc op settings⟩
  refine (Cursor.carries_substitutes op doc).callsOnly fun concurrent type _ => ?_
  constructor <;> rw [Operation.scope_cursor]
  · rfl
  · exact fun _ => rfl

namespace Switch

/-- A field that is switched twice: by null, and then by a variable. -/
def head : FieldHead :=
  ⟨none, .unlocated (lit "a"), some (.unlocated
    [(.unlocated (lit "on"), .unlocated .null),
      (.unlocated (lit "on"), .unlocated (.var (lit "v")))]), none, .unlocated⟩

/-- The variable has a default. -/
def passing : Operation :=
  ⟨.query, none, some (.unlocated [⟨.unlocated (lit "v"), .unlocated (.named (lit "Flag") false),
    some (.unlocated (.scalar (.int 1))), none⟩]), none, [.field head none], .unlocated⟩

/-- The field is called with the default of the variable, however it comes to be called. -/
theorem calls_haveArguments_passing : service.root passing = .ok (.object query, root) ∧
    (passing.job schema [.operation passing] ⟨[], none, true⟩ (.object query) root).EntersOnly
      fun call => ∀ t, call = .field t →
        Keyed.get? t.arguments (lit "on") = some (.scalar (.int 1)) := by
  have hroot : service.root passing = .ok (.object query, root) := rfl
  have honly (x : Selection) (hx : passing.Contains [] x) : x = .field head none := by
    induction hx with
    | operation mem => exact List.mem_singleton.mp mem
    | fragment known => cases known
    | field _ _ ih | inline _ _ ih => cases ih
  obtain ⟨⟨r, hr, -, hcalls⟩, -⟩ :=
    Service.calls_haveArguments service [.operation passing] passing ⟨[], none, true⟩
  have hvalue : r (.var (lit "v")) = some (.scalar (.int 1)) := hr.var (lit "v")
  have hwritten : head.written? r (lit "on") = some ((r (.var (lit "v"))).getD .null) := rfl
  refine ⟨hroot, ?_⟩
  rintro s ms result s' hruns - hcall t rfl
  obtain ⟨f, hf⟩ := (hcalls.executed _ _ hroot).1 s ms result s' hruns _ hcall
  have hhead : f.head = head := (Selection.field.inj (honly _ hf.written)).1
  rw [hf.arguments, hhead, FieldHead.argument?, hwritten, hvalue]
  rfl

end Switch

end GraphQL
