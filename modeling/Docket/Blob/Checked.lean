import Docket.Blob.Decode

/-!
# Reading where sums are checked

A build that checks its sums does not go on with a sum that a word cannot hold: it
stops, and reading gives neither a value nor a fault. The sums of widths are all the
sums there are that grow with the schema. Everything else is read as ever.
-/
namespace Docket

namespace Schema

/-- The sum of two words, where a word holds it. -/
def addChecked (a b : UInt64) : Option UInt64 :=
  if a.toNat + b.toNat < 2 ^ 64 then some (a + b) else none

mutual

/-- The width, each of its sums checked. -/
def width? : Schema → Option UInt64
  | null => some 0
  | float => some 4
  | double => some 8
  | fixed _ size => some size
  | record _ fields => fieldsWidth? 0 fields
  | _ => some 1

/-- Adds the widths of fields to those before them, one after the other. -/
def fieldsWidth? (sum : UInt64) : List Field → Option UInt64
  | [] => some sum
  | ⟨_, schema, _⟩ :: rest =>
      schema.width?.bind fun width => (addChecked sum width).bind fun sum => fieldsWidth? sum rest

end

def entryWidth? (values : Schema) : Option UInt64 :=
  values.width?.bind (addChecked 1)

end Schema

namespace Blob

/-- A step of reading that may also stop. -/
abbrev Checked (α : Type) := StateT Cursor (ExceptT Fault Option) α

/-- A step without sums that could be too large. -/
def Read.checked {α : Type} (r : Read α) : Checked α := fun c => some (r c)

namespace Checked

variable {α : Type}

/-- Goes on with a sum, or stops where there is none. -/
def demand (x : Option α) : Checked α := fun c => x.map fun a => .ok (a, c)

def readItems (item : Datum → Checked Datum) : Nat → Slots → Checked Slots
  | 0, slots => pure slots
  | count + 1, slots => do
      let value ← item slots.next
      readItems item count (slots.fill value)

def readPairs (item : Datum → Checked Datum) : Nat → Pairs → Checked Pairs
  | 0, pairs => pure pairs
  | count + 1, pairs => do
      let key ← readText.checked
      let value ← item ((Entries.find? key pairs.old).getD .null)
      readPairs item count (pairs.put key value)

def readBlocks {σ : Type} (width : UInt64) (decoded : σ → Nat) (parts : Nat → σ → Checked σ) :
    List UInt8 → σ → Checked σ
  | [], _ => Read.checked fun c => .error (.shortage 1 c.offset c.remaining)
  | _ :: bytes, state => do
      let count ← Varint.readCount.checked
      if count = 0 then pure state
      else do
        (checkBlock .everyBlock count width (decoded state)).checked
        let state ← parts count state
        readBlocks width decoded parts bytes state

mutual

/-- Reads a value; the width of items and entries is asked for before the first block. -/
def readDatum : Schema → Datum → Checked Datum
  | .array items, old => do
      let width ← demand items.width?
      let slots ← readBlocks width Slots.filled (readItems (readDatum items)) (← remaining.checked) (.reusing old)
      return .array slots.values
  | .map values, old => do
      let width ← demand values.entryWidth?
      let pairs ← readBlocks width Pairs.count (readPairs (readDatum values)) (← remaining.checked) (.reusing old)
      return .map pairs.read
  | .record _ fields, old => do
      return .record (← readFields fields (oldFields fields.length old))
  | .union branches, old => do
      let index ← Varint.readNat.checked
      readBranch branches.length index branches index old
  | scalar, old => (Blob.readDatum .everyBlock scalar old).checked

def readFields : List Field → List Datum → Checked (List Datum)
  | [], _ => pure []
  | ⟨_, schema, _⟩ :: fields, old => do
      let first ← readDatum schema (old.headD .null)
      let others ← readFields fields old.tail
      return first :: others

def readBranch (count index : Nat) : List Schema → Nat → Datum → Checked Datum
  | [], _, _ => (Read.fail (.badBranch index count)).checked
  | branch :: _, 0, old => readDatum branch (if old.kind = branch.kind then old else .null)
  | _ :: rest, position + 1, old => readBranch count index rest position old

end

/-- What was read is a value of the whole blob if no byte is left over. -/
def whole : Except Fault (Datum × Cursor) → Except ValueError Datum
  | .error fault => .error (.malformed fault)
  | .ok (value, c) => if c.rest.isEmpty then .ok value else .error (.malformed (.trailing c.remaining))

/-- Reads the value of a whole blob, or stops. -/
def decode (schema : Schema) (bytes : List UInt8) (old : Datum) : Option (Except ValueError Datum) :=
  Option.map whole (readDatum schema old (.start bytes))

end Checked

end Blob

end Docket
