import Docket.Schema.Basic

/-!
# Optional values among unions

The common union of two branches, one of them null, stands for an optional value
of the other branch. Every other union keeps a tag with its values.
-/
namespace Docket

inductive UnionShape where
  /-- As values of this branch, or null. -/
  | optional (index : Nat) (branch : Schema)
  /-- With the index of the branch. -/
  | tagged

namespace Schema

def isNullable (branches : List Schema) : Bool :=
  branches.any (·.kind = .null)

/-- The shape of a union. Of two branches of one kind the first is meant. -/
def unionShape : List Schema → UnionShape
  | [first, second] =>
      if !isNullable [first, second] then .tagged
      else if first.kind = second.kind then .optional 0 first
      else if first.kind = .null then .optional 1 second
      else .optional 0 first
  | _ => .tagged

/-- The schema that a field's values are stored by: an optional value is stored
by its own schema, however often it is wrapped. -/
def carrier : Schema → Schema
  | union [first, second] =>
      match unionShape [first, second] with
      | .optional 0 _ => first.carrier
      | .optional _ _ => second.carrier
      | .tagged => union [first, second]
  | schema => schema

end Schema

end Docket
