import GraphQL.Value

/-!
Merging the results of one response key. Objects merge field by field and lists item by item where
both items are objects; anything else that is already there stays.
-/

namespace GraphQL.Value

mutual

/-- Merges the second value into the first. -/
def mergeInto : (source : Value) → (target : Value) → Value
  | object source, object target => object (mergeFields source target)
  | list source, list target => list (mergeItems source target)
  | _, target => target

def mergeFields : (source : List (Text × Value)) → (target : Keyed Value) → Keyed Value
  | [], target => target
  | (key, v) :: rest, target =>
    mergeFields rest
      (if target.contains key then Keyed.modify (mergeInto v) key target else target ++ [(key, v)])

/-- Merges objects that stand at one index. -/
def mergeItems : (source : List Value) → (target : List Value) → List Value
  | object source :: rest, object target :: others =>
    object (mergeFields source target) :: mergeItems rest others
  | _ :: rest, target :: others => target :: mergeItems rest others
  | _, target => target

end

/-- Puts a value under a key, merging it into the value that is already there. -/
def mergeKey (target : Keyed Value) (key : Text) (v : Value) : Keyed Value :=
  mergeFields [(key, v)] target

end GraphQL.Value
