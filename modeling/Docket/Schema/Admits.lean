import Docket.Datum

/-!
# The values of a schema

A schema admits a value of its kind whose parts are admitted by its parts. A union
admits what some branch admits; symbols must be declared, and lengths and numbers
of fields must be right.
-/
namespace Docket.Schema

/-- The value is one of the schema's. -/
inductive Admits : Schema → Datum → Prop where
  | null : Admits null .null
  | boolean (value : Bool) : Admits boolean (.boolean value)
  | int (value : Int32) : Admits int (.int value)
  | long (value : Int64) : Admits long (.long value)
  | float (bits : UInt32) : Admits float (.float bits)
  | double (bits : UInt64) : Admits double (.double bits)
  | string (value : String) : Admits string (.string value)
  | bytes (value : List UInt8) : Admits bytes (.bytes value)
  | enum {name symbol : String} {symbols : List String} :
      symbol ∈ symbols → Admits (enum name symbols) (.enum symbol)
  | fixed {name : String} {size : UInt64} {value : List UInt8} :
      value.length = size.toNat → Admits (fixed name size) (.fixed value)
  | array {items : Schema} {listed : List Datum} :
      (∀ value ∈ listed, Admits items value) → Admits (array items) (.array listed)
  | map {values : Schema} {entries : List (String × Datum)} :
      (∀ entry ∈ entries, Admits values entry.2) → Admits (map values) (.map entries)
  | record {name : String} {fields : List Field} {listed : List Datum} :
      listed.length = fields.length → (∀ pair ∈ fields.zip listed, Admits pair.1.schema pair.2) →
      Admits (record name fields) (.record listed)
  | union {branch : Schema} {branches : List Schema} {value : Datum} :
      branch ∈ branches → Admits branch value → Admits (union branches) value

end Docket.Schema
