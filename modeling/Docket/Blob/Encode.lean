import Docket.Blob.Varint
import Docket.Datum
import Docket.ValueError

/-!
# Values as blobs

A blob holds a value without any tag of its kind; the schema alone says how to
read it. Integers are varints, floating-point numbers their bits, least
significant byte first. Strings and bytes carry their length, symbols and union
branches their position. Arrays and maps are one block of counted items and a
count of zero, records their fields in order.
-/
namespace Docket.Blob

/-- The bytes of a number below `2 ^ (8 * count)`, least significant first. -/
def littleEndian : Nat → Nat → List UInt8
  | 0, _ => []
  | count + 1, n => UInt8.ofNat (n % 256) :: littleEndian count (n / 256)

/-- The number that bytes spell, least significant first. -/
def ofLittleEndian : List UInt8 → Nat
  | [] => 0
  | b :: rest => b.toNat + 256 * ofLittleEndian rest

theorem length_littleEndian (count n : Nat) : (littleEndian count n).length = count := by
  induction count generalizing n with
  | zero => rfl
  | succ count ih => simp [littleEndian, ih]

/-- Of a number, the bytes keep what fits them. -/
theorem ofLittleEndian_littleEndian (count n : Nat) : ofLittleEndian (littleEndian count n) = n % 256 ^ count := by
  induction count generalizing n with
  | zero => simp [littleEndian, ofLittleEndian, Nat.mod_one]
  | succ count ih =>
      have low : (UInt8.ofNat (n % 256)).toNat = n % 256 := by
        rw [UInt8.toNat_ofNat']
        omega
      rw [littleEndian, ofLittleEndian, ih, low, Nat.pow_succ, Nat.mul_comm (256 ^ count), Nat.mod_mul]

def counted (bytes : List UInt8) : List UInt8 :=
  Varint.encodeNat bytes.length ++ bytes

def encodeText (s : String) : List UInt8 :=
  counted (Text.Utf8.encode s)

/-- The items of an array or map as one block, then the end. An empty one is the
end alone. -/
def block (items : List (List UInt8)) : List UInt8 :=
  if items.isEmpty then Varint.encodeNat 0
  else Varint.encodeNat items.length ++ items.flatten ++ Varint.encodeNat 0

/-- Whether a branch takes a value: kinds agree, and a symbol is declared, a
length or a number of fields is right. -/
def takes : Schema → Datum → Bool
  | .enum _ symbols, .enum symbol => symbols.contains symbol
  | .fixed _ size, .fixed bytes => size.toNat = bytes.length
  | .record _ fields, .record values => fields.length = values.length
  | branch, value => branch.kind = value.kind

mutual

def encode : Schema → Datum → Except ValueError (List UInt8)
  | .null, .null => .ok []
  | .boolean, .boolean value => .ok [if value then 1 else 0]
  | .int, .int value => .ok (Varint.encode value.toInt64)
  | .long, .long value => .ok (Varint.encode value)
  | .float, .float bits => .ok (littleEndian 4 bits.toNat)
  | .double, .double bits => .ok (littleEndian 8 bits.toNat)
  | .string, .string value => .ok (encodeText value)
  | .bytes, .bytes value => .ok (counted value)
  | .enum name symbols, .enum symbol =>
      match Schema.ordinal? symbols symbol with
      | some ordinal => .ok (Varint.encodeNat ordinal)
      | none => .error (.unknownSymbol name symbol)
  | .fixed name size, .fixed value =>
      if value.length = size.toNat then .ok value
      else .error (.malformed (.fixedSize name size.toNat value.length))
  | .array items, .array values => (values.mapM (encode items)).map block
  | .map values, .map entries =>
      (entries.mapM fun e => (encode values e.2).map (encodeText e.1 ++ ·)).map block
  | .record name fields, .record values =>
      if values.length = fields.length then encodeFields fields values
      else .error (.malformed (.recordSize name fields.length values.length))
  | .union branches, value => encodeBranch branches 0 value
  | schema, value => .error (.mismatch schema.kind value.kind)

def encodeFields : List Field → List Datum → Except ValueError (List UInt8)
  | ⟨_, schema, _⟩ :: fields, value :: values => do
      let first ← encode schema value
      let others ← encodeFields fields values
      return first ++ others
  | _, _ => .ok []

/-- The position of the first branch that takes the value, then the value. The
branches given begin at a position of the union. -/
def encodeBranch : List Schema → Nat → Datum → Except ValueError (List UInt8)
  | [], _, value => .error (.mismatch .union value.kind)
  | branch :: rest, position, value =>
      if takes branch value then (encode branch value).map (Varint.encodeNat position ++ ·)
      else encodeBranch rest (position + 1) value

end

end Docket.Blob
