import Docket.Blob.Encode
import Docket.Blob.Width

/-!
# Reading values from blobs

Reading follows the schema. Arrays and maps come in any number of blocks; before
the items of a block are read, its count is held against the bytes that remain,
so that no blob can ask for more items than it has room for. Items without width
need no room, and their number is limited instead.

A value that is no longer needed may be handed in to be overwritten: its arrays
and records are filled in place and its map entries taken apart. That changes
what is allocated, not what is read.
-/
namespace Docket.Blob

/-- Which announced counts are held against the bytes that remain. -/
inductive Guard where
  | everyBlock
  | weightlessOnly
  deriving DecidableEq, Repr

/-- Refuses a block of `count` items of a width when `decoded` items have been
read before it. Items of some width must all fit the bytes that remain. -/
def checkBlock (guard : Guard) (count : Nat) (width : UInt64) (decoded : Nat) : Read Unit := fun c =>
  if width = 0 then
    if zeroWidthLimit - decoded < count then .error (.weightlessBlock count) else .ok ((), c)
  else if guard = .everyBlock ∧ shorter (count * width.toNat) c.rest then
    .error (.heavyBlock count width.toNat c.remaining)
  else .ok ((), c)

def readText : Read String := do
  let length ← Varint.readNat
  let bytes ← slice length
  match Text.Utf8.decode bytes with
  | .ok s => pure s
  | .error fault => Read.fail (.badText fault)

def readBytes : Read (List UInt8) := do
  let length ← Varint.readNat
  slice length

/-- The items of an array, some of them filled in, the others left over from the
value that is overwritten. -/
structure Slots where
  items : Array Datum
  filled : Nat
  filled_le : filled ≤ items.size

namespace Slots

def reusing : Datum → Slots
  | .array items => ⟨items.toArray, 0, Nat.zero_le _⟩
  | _ => ⟨#[], 0, Nat.zero_le _⟩

/-- Takes the next slot's old value out, or null where there is none. -/
def next (s : Slots) : Datum :=
  s.items.getD s.filled .null

def fill (s : Slots) (value : Datum) : Slots :=
  if inside : s.filled < s.items.size then
    ⟨s.items.set s.filled value inside, s.filled + 1, by rw [Array.size_set]; exact inside⟩
  else
    ⟨s.items.push value, s.filled + 1, by rw [Array.size_push]; exact Nat.succ_le_succ s.filled_le⟩

def values (s : Slots) : List Datum :=
  s.items.toList.take s.filled

@[simp] theorem values_reusing (old : Datum) : (reusing old).values = [] := by
  unfold reusing values
  split <;> simp

@[simp] theorem length_values (s : Slots) : s.values.length = s.filled := by
  rw [values, List.length_take, Array.length_toList]
  exact Nat.min_eq_left s.filled_le

/-- What was left over does not show. -/
@[simp] theorem values_fill (s : Slots) (value : Datum) : (s.fill value).values = s.values ++ [value] := by
  unfold fill values
  split
  · rename_i inside
    have short : (s.items.toList.take s.filled).length ≤ s.filled := List.length_take_le _ _
    simp [List.take_add_one, List.take_set, inside, List.set_eq_of_length_le short]
  · rename_i outside
    have full : s.filled = s.items.size := Nat.le_antisymm s.filled_le (Nat.not_lt.1 outside)
    simp [full, List.take_of_length_le]

end Slots

def readItems (item : Datum → Read Datum) : Nat → Slots → Read Slots
  | 0, slots => pure slots
  | count + 1, slots => do
      let value ← item slots.next
      readItems item count (slots.fill value)

/-- Reads blocks up to the count of zero. What was read so far tells how many
parts it holds, and the parts of a block are read on top of it. Every block takes
up a byte at least, so the bytes that remain, given first, bound their number;
where none remains, there is no count to be read. -/
def readBlocks {σ : Type} (guard : Guard) (width : UInt64) (decoded : σ → Nat) (parts : Nat → σ → Read σ) :
    List UInt8 → σ → Read σ
  | [], _ => fun c => .error (.shortage 1 c.offset c.remaining)
  | _ :: bytes, state => do
      let count ← Varint.readCount
      if count = 0 then pure state
      else do
        checkBlock guard count width (decoded state)
        let state ← parts count state
        readBlocks guard width decoded parts bytes state

/-- The entries of a map read so far, and those of the value that is overwritten. -/
structure Pairs where
  read : List (String × Datum)
  old : List (String × Datum)

def Pairs.reusing : Datum → Pairs
  | .map entries => ⟨[], entries⟩
  | _ => ⟨[], []⟩

@[simp] theorem Pairs.read_reusing (old : Datum) : (Pairs.reusing old).read = [] := by
  cases old <;> rfl

def Pairs.count (p : Pairs) : Nat :=
  p.read.length

/-- Puts an entry among those read and takes its old value away. -/
def Pairs.put (p : Pairs) (key : String) (value : Datum) : Pairs :=
  ⟨Entries.insert key value p.read, Entries.erase key p.old⟩

/-- Reads entries; of a repeated key the last value stands. -/
def readPairs (item : Datum → Read Datum) : Nat → Pairs → Read Pairs
  | 0, pairs => pure pairs
  | count + 1, pairs => do
      let key ← readText
      let value ← item ((Entries.find? key pairs.old).getD .null)
      readPairs item count (pairs.put key value)

def oldFields (count : Nat) : Datum → List Datum
  | .record values => if values.length = count then values else []
  | _ => []

def remaining : Read (List UInt8) := fun c => .ok (c.rest, c)

mutual

/-- Reads a value, overwriting an old one where the shapes agree. -/
def readDatum (guard : Guard) : Schema → Datum → Read Datum
  | .null, _ => pure .null
  | .boolean, _ => do
      let b ← byte
      if b = 0 then pure (.boolean false)
      else if b = 1 then pure (.boolean true)
      else Read.fail (.badBoolean b)
  | .int, _ => do return .int (← Varint.readInt)
  | .long, _ => do return .long (← Varint.read)
  | .float, _ => do return .float (ofLittleEndian (← slice 4)).toUInt32
  | .double, _ => do return .double (ofLittleEndian (← slice 8)).toUInt64
  | .string, _ => do return .string (← readText)
  | .bytes, _ => do return .bytes (← readBytes)
  | .enum name symbols, _ => do
      let ordinal ← Varint.readNat
      match symbols[ordinal]? with
      | some symbol => pure (.enum symbol)
      | none => Read.fail (.badOrdinal name ordinal)
  | .fixed _ size, _ => do return .fixed (← slice size.toNat)
  | .array items, old => do
      let slots ←
        readBlocks guard items.width Slots.filled (readItems (readDatum guard items)) (← remaining) (.reusing old)
      return .array slots.values
  | .map values, old => do
      let pairs ←
        readBlocks guard values.entryWidth Pairs.count (readPairs (readDatum guard values)) (← remaining) (.reusing old)
      return .map pairs.read
  | .record _ fields, old => do
      return .record (← readFields guard fields (oldFields fields.length old))
  | .union branches, old => do
      let index ← Varint.readNat
      readBranch guard branches.length index branches index old

/-- Reads the values of fields, each over the old value in its place. -/
def readFields (guard : Guard) : List Field → List Datum → Read (List Datum)
  | [], _ => pure []
  | ⟨_, schema, _⟩ :: fields, old => do
      let first ← readDatum guard schema (old.headD .null)
      let others ← readFields guard fields old.tail
      return first :: others

/-- Reads a value of the branch at a position. The old value is of use only if
it is of the branch's kind. -/
def readBranch (guard : Guard) (count index : Nat) : List Schema → Nat → Datum → Read Datum
  | [], _, _ => Read.fail (.badBranch index count)
  | branch :: _, 0, old => readDatum guard branch (if old.kind = branch.kind then old else .null)
  | _ :: rest, position + 1, old => readBranch guard count index rest position old

end

/-- Reads the value of a whole blob; no byte may be left over. -/
def decodeWith (guard : Guard) (schema : Schema) (bytes : List UInt8) (old : Datum) : Except Fault Datum :=
  match readDatum guard schema old (.start bytes) with
  | .error fault => .error fault
  | .ok (value, c) => if c.rest.isEmpty then .ok value else .error (.trailing c.remaining)

def decode (schema : Schema) (bytes : List UInt8) (old : Datum) : Except ValueError Datum :=
  (decodeWith .everyBlock schema bytes old).mapError .malformed

end Docket.Blob
