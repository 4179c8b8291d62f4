import Docket.Schema.Check
import Docket.Schema.Within

/-!
# Schemas that keep their rules

`Schema.check` stops at records, since a record is judged when it is made.
`Sound` asks for the rules at every depth, records included, and `Built` says
that every record in a schema was made of fields that passed their check.
-/
namespace Docket.Schema

/-- The rules of a schema alone, not of those inside it: a union has two branches
or more, at most one of them null and none a union, and an enumeration has a
symbol and none twice. -/
def KeepsRules : Schema → Prop
  | union branches =>
      2 ≤ branches.length ∧ branches.countP (·.kind = .null) ≤ 1 ∧ ∀ branch ∈ branches, branch.kind ≠ .union
  | enum _ symbols => symbols ≠ [] ∧ symbols.Nodup
  | _ => True

/-- The rules are kept at every depth. -/
def Sound (s : Schema) : Prop :=
  ∀ part : Schema, part.Within s → part.KeepsRules

/-- Every record in the schema is made of fields that passed their check. -/
def Built (s : Schema) : Prop :=
  ∀ name fields, (record name fields).Within s → checkFields name [] fields = .ok ()

end Docket.Schema
