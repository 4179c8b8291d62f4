import Docket.Keyed
import Docket.Numeral.Binary

/-!
# Document values

The values a document holds. Numbers keep the difference between an integer and
a double, since their texts differ; a double is held by its bits. An object is a
list of fields in the order in which they are written; `Json.sorted` brings every
object of a value into key order.
-/
namespace Docket

/-- A number as a document holds it: an integer of at most 64 bits, signed or
unsigned, or the bits of a double. -/
inductive Json.Number where
  | integer (value : Int)
  | double (bits : UInt64)
  deriving DecidableEq, Repr

inductive Json where
  | null
  | bool (value : Bool)
  | number (value : Json.Number)
  | string (value : String)
  | array (items : List Json)
  | object (fields : List (String × Json))

namespace Json

instance : Inhabited Json := ⟨null⟩

def ofNat (n : Nat) : Json := number (.integer n)

def ofInt (n : Int) : Json := number (.integer n)

def kindName : Json → String
  | null => "null"
  | bool _ => "boolean"
  | number _ => "number"
  | string _ => "string"
  | array _ => "array"
  | object _ => "object"

def isNull : Json → Bool
  | null => true
  | _ => false

def string? : Json → Option String
  | string s => some s
  | _ => none

def bool? : Json → Option Bool
  | bool b => some b
  | _ => none

def integer? : Json → Option Int
  | number (.integer n) => some n
  | _ => none

def natural? : Json → Option Nat
  | number (.integer (.ofNat n)) => some n
  | _ => none

def array? : Json → Option (List Json)
  | array items => some items
  | _ => none

def object? : Json → Option (List (String × Json))
  | object fields => some fields
  | _ => none

def field? (key : String) : Json → Option Json
  | object fields => Entries.find? key fields
  | _ => none

mutual

/-- The same value with every object in key order; of a repeated key the last
value stands. -/
def sorted : Json → Json
  | array items => array (sortedItems items)
  | object fields => object (Entries.ofList (sortedFields fields))
  | value => value

def sortedItems : List Json → List Json
  | [] => []
  | item :: rest => item.sorted :: sortedItems rest

def sortedFields : List (String × Json) → List (String × Json)
  | [] => []
  | (key, value) :: rest => (key, value.sorted) :: sortedFields rest

end

/-- Equality of numbers: an integer equals no double, doubles compare as numbers. -/
def Number.same : Number → Number → Bool
  | .integer a, .integer b => a = b
  | .double a, .double b => Numeral.Format.double.equal a.toNat b.toNat
  | _, _ => false

mutual

def same : Json → Json → Bool
  | null, null => true
  | bool a, bool b => a == b
  | number a, number b => a.same b
  | string a, string b => a == b
  | array as, array bs => sameItems as bs
  | object as, object bs => sameFields as bs
  | _, _ => false

def sameItems : List Json → List Json → Bool
  | [], [] => true
  | a :: as, b :: bs => a.same b && sameItems as bs
  | _, _ => false

def sameFields : List (String × Json) → List (String × Json) → Bool
  | [], [] => true
  | (k, a) :: as, (l, b) :: bs => k == l && a.same b && sameFields as bs
  | _, _ => false

end

end Json

end Docket
