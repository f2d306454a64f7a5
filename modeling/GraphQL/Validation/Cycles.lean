import GraphQL.Validation

/-!
Fragments that spread one another in a circle. The search goes depth first through the spreads of
each fragment and remembers by which spread it left the fragments under way; a spread of one of them
closes a circle.
-/

namespace GraphQL

namespace Selection

mutual

def spreads : Selection → List Spread
  | field _ none => []
  | field _ (some body) => spreadsOf body
  | spread s => [s]
  | inline _ body => spreadsOf body

def spreadsOf : List Selection → List Spread
  | [] => []
  | s :: rest => s.spreads ++ spreadsOf rest

end

end Selection

namespace Fragment

/-- The spreads inside all fragments of a name. -/
def spreadsFrom (fragments : List Fragment) (name : Text) : List Spread :=
  (fragments.filter (·.name.value == name)).flatMap (Selection.spreadsOf ·.selections)

end Fragment

namespace Cycles

/-- The fragments that the search has entered, and what it has found. -/
structure Search where
  visited : List Text
  found : List RuleError

namespace Search

/-- The report about a fragment that is entered again, at the spread by which it was left. -/
def report (st : Search) (name : Text) (leftBy : Spread) : Search :=
  { st with found := st.found ++
      [⟨lit "Cannot spread fragment \"" ++ name ++ lit "\"", [leftBy.span.start]⟩] }

def visit (st : Search) (name : Text) : Search := { st with visited := name :: st.visited }

end Search

/-- Enters a fragment. The trail holds the fragments under way, each with the spread it was left by.
A fragment is entered once, so `fuel` need not be more than the number of names. -/
def enter (spreads : Text → List Spread) :
    (fuel : Nat) → (trail : Keyed Spread) → Text → Search → Search
  | 0, _, _, st => st
  | fuel + 1, trail, name, st =>
    (spreads name).foldl (fun st sp =>
      let trail := (name, sp) :: trail
      match Keyed.get? trail sp.name.value with
      | some leftBy => st.report sp.name.value leftBy
      | none =>
        if st.visited.contains sp.name.value then st
        else enter spreads fuel trail sp.name.value st) (st.visit name)

/-- Searches fragments, one by one. A spread may name one more than are defined. -/
def search (fragments : List Fragment) : Search :=
  let spreads := Fragment.spreadsFrom fragments
  let depth := fragments.length + 1
  fragments.foldl (fun st f =>
    if st.visited.contains f.name.value then st
    else enter spreads depth [] f.name.value st) ⟨[], []⟩

end Cycles

end GraphQL
