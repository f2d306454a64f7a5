import GraphQL.Schema.Scalars
import GraphQL.Violation

/-!
The registry that a schema is built from. Names can be reserved before their types are defined.
-/

namespace GraphQL

/-- What can be asked to stand in a registry: a definition, a wrapper, or a reserved name. -/
inductive TypeEntry where
  | defined (d : TypeDef)
  | list (element : TypeRef) (size : Option Nat)
  | nullable (type : TypeRef)
  | placeholder (type : TypeRef)

namespace TypeEntry

def definition? : TypeEntry → Option TypeDef
  | defined d => some d
  | _ => none

def name? (e : TypeEntry) : Option Text := e.definition?.map TypeDef.name

/-- The kind of a type; wrappers and reserved names have none. -/
def kind : TypeEntry → Except Violation TypeKind
  | defined d => .ok d.kind
  | list .. => .ok .list
  | nullable _ => .error .kindOfNullable
  | placeholder _ => .error .kindOfPlaceholder

/-- The reference that leads back to a type. -/
def toRef : TypeEntry → TypeRef
  | defined d => .named d.name true
  | list element size => .list element size true
  | nullable type => type.nullable
  | placeholder type => type

end TypeEntry

/-- Types by name, in the order the names came up. -/
structure Registry where
  types : Keyed TypeEntry

namespace Registry

/-- Defines a type, in place of an earlier one of that name or of its reservation. -/
def define (r : Registry) (d : TypeDef) : Registry := ⟨r.types.put d.name (.defined d)⟩

/-- Adds a type, which has to have a name. -/
def add (r : Registry) (e : TypeEntry) : Except Violation Registry :=
  match e with
  | .defined d => .ok (r.define d)
  | _ => .error .unnamedType

/-- Reserves a name, unless it is taken. -/
def reserve (r : Registry) (name : Text) : Registry :=
  ⟨r.types.putNew name (.placeholder (.named name true))⟩

def get? (r : Registry) (name : Text) : Option TypeEntry := r.types.get? name

/-- `true` when a name is defined or reserved. -/
def contains (r : Registry) (name : Text) : Bool := r.types.contains name

def initial : Registry := Scalars.builtin.foldl (fun r d => r.define (.scalar d)) ⟨[]⟩

end Registry

end GraphQL
