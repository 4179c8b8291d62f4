import Docket.Json.Basic

/-!
# Schemas

A schema is a closed description of a value's shape: primitive kinds, named
enumerations and fixed-length byte strings, homogeneous arrays and maps, records
of named fields, and unions of alternatives. Records carry a default for a field
as the document value it was declared with.
-/
namespace Docket

inductive Kind where
  | null | boolean | int | long | float | double | string | bytes
  | enum | fixed | array | map | record | union
  deriving DecidableEq, Repr

namespace Kind

def all : List Kind :=
  [null, boolean, int, long, float, double, string, bytes, enum, fixed, array, map, record, union]

def name : Kind → String
  | null => "null"
  | boolean => "boolean"
  | int => "int"
  | long => "long"
  | float => "float"
  | double => "double"
  | string => "string"
  | bytes => "bytes"
  | enum => "enum"
  | fixed => "fixed"
  | array => "array"
  | map => "map"
  | record => "record"
  | union => "union"

/-- Whether values of the kind are always stored as blobs. -/
def isStructured : Kind → Bool
  | array | map | record => true
  | _ => false

end Kind

mutual

inductive Schema where
  | null
  | boolean
  | int
  | long
  | float
  | double
  | string
  | bytes
  | enum (name : String) (symbols : List String)
  | fixed (name : String) (size : UInt64)
  | array (items : Schema)
  | map (values : Schema)
  | record (name : String) (fields : List Field)
  | union (branches : List Schema)

/-- A named part of a record; its position is its place among the fields. -/
structure Field where
  name : String
  schema : Schema
  default : Option Json

end

namespace Schema

instance : Inhabited Schema := ⟨null⟩

def kind : Schema → Kind
  | null => .null
  | boolean => .boolean
  | int => .int
  | long => .long
  | float => .float
  | double => .double
  | string => .string
  | bytes => .bytes
  | enum _ _ => .enum
  | fixed _ _ => .fixed
  | array _ => .array
  | map _ => .map
  | record _ _ => .record
  | union _ => .union

/-- The position of a symbol among the symbols of an enumeration. -/
def ordinal? (symbols : List String) (symbol : String) : Option Nat :=
  symbols.findIdx? (· = symbol)

def sameDefault : Option Json → Option Json → Bool
  | none, none => true
  | some a, some b => a.same b
  | _, _ => false

mutual

/-- Equality of schemas, defaults included. -/
def same : Schema → Schema → Bool
  | null, null | boolean, boolean | int, int | long, long => true
  | float, float | double, double | string, string | bytes, bytes => true
  | enum n ss, enum m ts => n == m && ss == ts
  | fixed n k, fixed m l => n == m && k == l
  | array a, array b => a.same b
  | map a, map b => a.same b
  | record n fs, record m gs => n == m && sameFields fs gs
  | union as, union bs => sameBranches as bs
  | _, _ => false

def sameFields : List Field → List Field → Bool
  | [], [] => true
  | ⟨n, s, d⟩ :: fs, ⟨m, t, e⟩ :: gs => n == m && s.same t && sameDefault d e && sameFields fs gs
  | _, _ => false

def sameBranches : List Schema → List Schema → Bool
  | [], [] => true
  | a :: as, b :: bs => a.same b && sameBranches as bs
  | _, _ => false

end

end Schema

end Docket
