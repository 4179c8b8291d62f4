import Docket.Datum
import Docket.Record.DirtyBits
import Docket.ValueError

/-!
# Records

A record holds one value for each field of its schema and remembers which of
them were put since it was last known to agree with what is stored.
-/
namespace Docket

structure Record where
  schema : RecordSchema
  values : List Datum
  dirty : DirtyBits
  isNew : Bool
  values_length : values.length = schema.size
  dirty_length : dirty.length = schema.size

namespace Record

/-- A record that was never stored: every value null, none put. -/
def fresh (schema : RecordSchema) : Record :=
  ⟨schema, List.replicate schema.size .null, .clean schema.size, true, List.length_replicate, rfl⟩

def setValue (r : Record) (position : Nat) (value : Datum) : Record :=
  { r with
    values := r.values.set position value
    values_length := by rw [List.length_set]; exact r.values_length }

def setDirty (r : Record) (position : Nat) : Record :=
  { r with
    dirty := r.dirty.set position
    dirty_length := by rw [DirtyBits.length_set]; exact r.dirty_length }

def get? (r : Record) (position : Nat) : Option Datum :=
  r.values[position]?

def getNamed? (r : Record) (name : String) : Option Datum :=
  (r.schema.position? name).bind r.get?

/-- Puts a value at a position and marks it; out of range nothing happens. -/
def put (r : Record) (position : Nat) (value : Datum) : Record :=
  if position < r.values.length then (r.setValue position value).setDirty position else r

def putNamed (r : Record) (name : String) (value : Datum) : Except ValueError Record :=
  match r.schema.position? name with
  | some position => .ok (r.put position value)
  | none => .error (.unknownField name)

/-- Takes the value out of a position and leaves null there; marks stay as they are. -/
def take (r : Record) (position : Nat) : Datum × Record :=
  (r.values.getD position .null, r.setValue position .null)

/-- Whether the value at a position was put since the record was last clean. -/
def isDirtyAt (r : Record) (position : Nat) : Bool :=
  r.dirty.get position

def isDirty (r : Record) : Bool :=
  r.dirty.any

def clearDirty (r : Record) : Record :=
  { r with
    dirty := r.dirty.clear
    dirty_length := by rw [DirtyBits.length_clear]; exact r.dirty_length }

def setNew (r : Record) (isNew : Bool) : Record :=
  { r with isNew }

def markClean (r : Record) : Record :=
  r.clearDirty.setNew false

/-- Whether storing the record would change anything. -/
def needsWrite (r : Record) : Bool :=
  r.isNew || r.isDirty

/-- Equality of schema, values, marks and novelty. -/
def same (r s : Record) : Bool :=
  r.schema.same s.schema && Datum.sameItems r.values s.values && r.dirty == s.dirty && r.isNew == s.isNew

end Record

end Docket
