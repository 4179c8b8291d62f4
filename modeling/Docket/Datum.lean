import Docket.Numeral.Binary
import Docket.Schema.Basic

/-!
# Typed values

A datum is the value of a field in memory. Its kinds are those of schemas, except
that a union has no values of its own: a value of a union is a value of one of
its branches. Floating-point numbers are held by their bits, so that a stored
not-a-number keeps its payload; maps list their entries in key order.
-/
namespace Docket

inductive Datum where
  | null
  | boolean (value : Bool)
  | int (value : Int32)
  | long (value : Int64)
  | float (bits : UInt32)
  | double (bits : UInt64)
  | string (value : String)
  | bytes (value : List UInt8)
  | enum (symbol : String)
  | fixed (value : List UInt8)
  | array (items : List Datum)
  | map (entries : List (String × Datum))
  | record (values : List Datum)

namespace Datum

instance : Inhabited Datum := ⟨null⟩

def kind : Datum → Kind
  | null => .null
  | boolean _ => .boolean
  | int _ => .int
  | long _ => .long
  | float _ => .float
  | double _ => .double
  | string _ => .string
  | bytes _ => .bytes
  | enum _ => .enum
  | fixed _ => .fixed
  | array _ => .array
  | map _ => .map
  | record _ => .record

def isNull : Datum → Bool
  | null => true
  | _ => false

def text? : Datum → Option String
  | string s | enum s => some s
  | _ => none

def integer? : Datum → Option Int
  | int v => some v.toInt
  | long v => some v.toInt
  | _ => none

def size : Datum → Nat
  | array items => items.length
  | map entries => entries.length
  | record values => values.length
  | _ => 0

mutual

/-- Equality of values; floating-point numbers compare as numbers. -/
def same : Datum → Datum → Bool
  | null, null => true
  | boolean a, boolean b => a == b
  | int a, int b => a == b
  | long a, long b => a == b
  | float a, float b => Numeral.Format.single.equal a.toNat b.toNat
  | double a, double b => Numeral.Format.double.equal a.toNat b.toNat
  | string a, string b | enum a, enum b => a == b
  | bytes a, bytes b | fixed a, fixed b => a == b
  | array as, array bs | record as, record bs => sameItems as bs
  | map as, map bs => sameEntries as bs
  | _, _ => false

def sameItems : List Datum → List Datum → Bool
  | [], [] => true
  | a :: as, b :: bs => a.same b && sameItems as bs
  | _, _ => false

def sameEntries : List (String × Datum) → List (String × Datum) → Bool
  | [], [] => true
  | (k, a) :: as, (l, b) :: bs => k == l && a.same b && sameEntries as bs
  | _, _ => false

end

/-- The first value is the second one or a part of it, at any depth. -/
inductive Within : Datum → Datum → Prop where
  | self (value : Datum) : Within value value
  | item {part value : Datum} {items : List Datum} :
      value ∈ items → Within part value → Within part (array items)
  | entry {part : Datum} {entry : String × Datum} {entries : List (String × Datum)} :
      entry ∈ entries → Within part entry.2 → Within part (map entries)
  | field {part value : Datum} {values : List Datum} :
      value ∈ values → Within part value → Within part (record values)

/-- Every map in the value lists its entries in key order. -/
def Ordered (value : Datum) : Prop :=
  ∀ entries, (map entries).Within value → Entries.Ascending entries

def ofInteger (n : Int) : Datum :=
  if -2 ^ 31 ≤ n ∧ n < 2 ^ 31 then int (Int32.ofInt n) else long (Int64.ofInt n)

/-- The datum of a document value: truth values, strings, numbers and lists of
strings have one, everything else is null. An integer beyond 64 bits with sign
becomes the nearest double. -/
def ofJson : Json → Datum
  | .bool b => boolean b
  | .string s => string s
  | .number (.integer n) =>
      if n < 2 ^ 63 then ofInteger n
      else double (Numeral.Format.double.nearest false (.ofNat n.toNat)).toUInt64
  | .number (.double bits) => double bits
  | .array items =>
      match items.mapM Json.string? with
      | some texts => array (texts.map string)
      | none => null
  | _ => null

end Datum

end Docket
