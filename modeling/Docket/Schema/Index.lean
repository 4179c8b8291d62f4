import Docket.Keyed
import Docket.Schema.Check

/-!
# Fields under positions and names

A record schema is made in one pass over its declared fields. Each field's schema
is checked, the field gets the next position, and its name is filed with that
position; a name that is filed already ends the pass. A look-up by name goes
through the file.
-/
namespace Docket

/-- A field with the position that it was given. -/
structure PlacedField where
  field : Field
  position : Nat

/-- The fields that were placed, and the file of their names. -/
structure RecordIndex where
  fields : List PlacedField
  positions : Keyed Nat

namespace RecordIndex

def empty : RecordIndex := ⟨[], ∅⟩

/-- One field more. -/
def place (index : RecordIndex) (record : String) (field : Field) (position : Nat) : Except SchemaError RecordIndex :=
  match field.schema.check with
  | .error e => .error e
  | .ok () =>
      if index.positions.contains field.name then .error (.repeatedField record field.name)
      else .ok ⟨index.fields ++ [⟨field, position⟩], index.positions.insert field.name position⟩

def placeAll (record : String) : List (Field × Nat) → RecordIndex → Except SchemaError RecordIndex
  | [], index => .ok index
  | (field, position) :: rest, index =>
      match index.place record field position with
      | .error e => .error e
      | .ok index => placeAll record rest index

/-- The fields under their positions in the order of their declaration. -/
def ofFields (record : String) (fields : List Field) : Except SchemaError RecordIndex :=
  placeAll record fields.zipIdx empty

def position? (index : RecordIndex) (name : String) : Option Nat :=
  index.positions.find? name

def field? (index : RecordIndex) (name : String) : Option PlacedField :=
  (index.position? name).bind fun position => index.fields[position]?

end RecordIndex

end Docket
