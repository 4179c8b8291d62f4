import Docket.Proofs.Blob.Forms
import Docket.Proofs.Blob.Scalar

/-!
# Where a block ends has no meaning

The parts of an array or a map may be cut into blocks anywhere. Each block may be
announced by its count, or by the negative of it and a size that nobody looks at. An
array comes out as all its items in order, a map with the last value of each key.
Only items without width are limited, and then it is all of them that count.
-/
namespace Docket.Blob

variable {α : Type}

/-- A block as a writer may lay it out: one part at least, each with what it spells,
and a count of them of either sign. The size is written only behind a negative count,
and may be any. -/
structure Block (α : Type) where
  parts : List (List UInt8 × α)
  count : Int64
  size : Int64
  nonempty : parts ≠ []
  counted : count.toInt.natAbs = parts.length

namespace Block

def head (b : Block α) : List UInt8 :=
  Varint.encode b.count ++ if b.count.toInt < 0 then Varint.encode b.size else []

def bytes (b : Block α) : List UInt8 :=
  b.head ++ joined b.parts

theorem yields_head (b : Block α) : Yields Varint.readCount b.head b.parts.length := by
  have hc := b.counted
  refine (Varint.yields_read b.count).bind ?_
  cases hn : b.count.toInt with
  | ofNat n =>
      obtain rfl : n = b.parts.length := by rw [hn] at hc; exact hc
      have hpos : ¬Int.ofNat b.parts.length < 0 := Int.not_lt.2 (Int.natCast_nonneg _)
      rw [if_neg hpos]
      exact yields_pure _
  | negSucc n =>
      have hc : n + 1 = b.parts.length := by rw [hn] at hc; exact hc
      rw [if_pos (Int.negSucc_lt_zero n), ← hc]
      exact (Varint.yields_read b.size).bind_nil (yields_pure (n + 1))

end Block

/-- Blocks one after the other, and the count of zero. -/
def blockwise (blocks : List (Block α)) : List UInt8 :=
  (blocks.map Block.bytes).flatten ++ Varint.encodeNat 0

/-- What the parts spell, whichever blocks they are in. -/
def spelled (blocks : List (Block α)) : List α :=
  (blocks.map Block.parts).flatten.map Prod.snd

theorem blocks_blockwise {P : List UInt8 → α → Prop} {blocks : List (Block α)}
    (h : ∀ block ∈ blocks, ∀ part ∈ block.parts, P part.1 part.2) :
    Blocks P (blockwise blocks) (blocks.map Block.parts) := by
  induction blocks with
  | nil => exact .last (Varint.yields_readCount (by decide))
  | cons block blocks ih =>
      obtain ⟨hblock, hblocks⟩ := List.forall_mem_cons.1 h
      have hb := Blocks.block block.yields_head block.nonempty hblock (ih hblocks)
      rw [blockwise, List.map_cons, List.flatten_cons, Block.bytes, List.append_assoc, List.append_assoc]
      exact hb

theorem length_flatten_parts (blocks : List (Block α)) :
    (blocks.map Block.parts).flatten.length = (spelled blocks).length :=
  (List.length_map _).symm

theorem decode_array_blockwise {items : Schema} {blocks : List (Block Datum)}
    (h : ∀ block ∈ blocks, ∀ part ∈ block.parts, Decoded items part.1 part.2) (old : Datum) :
    decode (.array items) (blockwise blocks) old = .ok (.array (spelled blocks)) ↔
      (items.width = 0 → (spelled blocks).length ≤ zeroWidthLimit) := by
  constructor
  · intro hd hw
    obtain ⟨rows, -, hl, hv⟩ := decode_array_eq_ok_iff.1 hd
    rw [Datum.array.inj hv, List.length_map]
    exact hl hw
  · intro hl
    rw [← length_flatten_parts] at hl
    exact decode_array_eq_ok_iff.2 ⟨_, blocks_blockwise h, hl, rfl⟩

/-- A key in UTF-8 behind its length, and a value. -/
def SpelledEntry (values : Schema) (bytes : List UInt8) (entry : String × Datum) : Prop :=
  ∃ body, bytes = encodeText entry.1 ++ body ∧ Decoded values body entry.2

theorem length_key_lt {values : Schema} {bytes : List UInt8} {entry : String × Datum}
    (h : SpelledEntry values bytes entry) (hb : bytes.length < 2 ^ 63) : entry.1.utf8ByteSize < 2 ^ 63 := by
  obtain ⟨body, rfl, -⟩ := h
  rw [encodeText, counted, List.length_append, List.length_append, length_text] at hb
  omega

/-- The width of an entry does not wrap if the entry can be addressed. -/
theorem entryWidth_ne_zero_of_spelled {values : Schema} {bytes : List UInt8} {entry : String × Datum}
    (h : SpelledEntry values bytes entry) (hb : bytes.length < 2 ^ 63) : values.entryWidth ≠ 0 := by
  obtain ⟨body, rfl, hv⟩ := h
  have hbody : values.width.toNat ≤ body.length := by
    rw [Schema.toNat_width]
    exact Nat.le_trans (Nat.mod_le _ _) (span_le_of_decode hv)
  intro hz
  have ht : values.entryWidth.toNat = (1 + values.width.toNat) % 2 ^ 64 := by
    rw [Schema.entryWidth, UInt64.toNat_add]
    rfl
  rw [hz, UInt64.toNat_zero] at ht
  rw [List.length_append] at hb
  omega

theorem decode_map_blockwise {values : Schema} {blocks : List (Block (String × Datum))}
    (hl : (blockwise blocks).length < 2 ^ 63)
    (h : ∀ block ∈ blocks, ∀ part ∈ block.parts, SpelledEntry values part.1 part.2) (old : Datum) :
    decode (.map values) (blockwise blocks) old = .ok (.map (Entries.ofList (spelled blocks))) := by
  have hb : Blocks (SpelledEntry values) (blockwise blocks) (blocks.map Block.parts) := blocks_blockwise h
  have hpart : ∀ part ∈ (blocks.map Block.parts).flatten, part.1.length < 2 ^ 63 := fun part hm =>
    Nat.lt_trans (hb.length_part_lt hm) hl
  have hentries : Blocks (Entry (Decoded values)) (blockwise blocks) (blocks.map Block.parts) := by
    refine hb.imp fun part hm he => ?_
    have hk := length_key_lt he (hpart part hm)
    obtain ⟨body, hbytes, hv⟩ := he
    exact ⟨encodeText part.2.1, body, hbytes, yields_readText hk, hv⟩
  refine decode_map_eq_ok_iff.2 ⟨_, hentries, ?_, rfl⟩
  cases blocks with
  | nil => exact trivial
  | cons block blocks =>
      obtain ⟨part, hm⟩ := List.exists_mem_of_ne_nil _ block.nonempty
      have hflat : part ∈ ((block :: blocks).map Block.parts).flatten := List.mem_append_left _ hm
      exact allowed_of_ne_zero (entryWidth_ne_zero_of_spelled (hb.part part hflat) (hpart part hflat)) _ _ _ _

/-- However parts that can be decoded are cut into blocks, and whatever signs and sizes
are written, the blob of an array is decoded to all its items in order, unless they
are without width and too many, and the blob of a map to its entries in key order,
the last one of each key. A blob that is longer than memory can be has keys whose
length cannot be written. -/
theorem decode_blockwise (old : Datum) :
    (∀ (items : Schema) (blocks : List (Block Datum)),
      (∀ block ∈ blocks, ∀ part ∈ block.parts, Decoded items part.1 part.2) →
      (decode (.array items) (blockwise blocks) old = .ok (.array (spelled blocks)) ↔
        (items.width = 0 → (spelled blocks).length ≤ zeroWidthLimit))) ∧
    ∀ (values : Schema) (blocks : List (Block (String × Datum))), (blockwise blocks).length < 2 ^ 63 →
      (∀ block ∈ blocks, ∀ part ∈ block.parts, SpelledEntry values part.1 part.2) →
      ∃ entries, decode (.map values) (blockwise blocks) old = .ok (.map entries) ∧ Entries.Ascending entries ∧
        ∀ key, Entries.find? key entries = Entries.find? key (spelled blocks).reverse := by
  refine ⟨fun items blocks h => decode_array_blockwise h old, fun values blocks hl h => ?_⟩
  exact ⟨_, decode_map_blockwise hl h old, Entries.ascending_ofList _, fun key => Entries.find?_ofList key _⟩

/-- Three longs in two blocks, the first of a negative count with a negative size. -/
def splitLongs : List (Block Datum) :=
  [⟨[([10], .long 5), ([12], .long 6)], -2, -1000, by decide, by decide⟩, ⟨[([14], .long 7)], 1, 0, by decide, by decide⟩]

/-- The key b, then a, then b again in a block of its own. -/
def splitPairs : List (Block (String × Datum)) :=
  [⟨[([2, 98, 10], "b", .long 5), ([2, 97, 12], "a", .long 6)], 2, 0, by decide, by decide⟩,
    ⟨[([2, 98, 14], "b", .long 7)], -1, 3, by decide, by decide⟩]

theorem blockwise_splitPairs :
    blockwise splitPairs = [4, 2, 98, 10, 2, 97, 12, 1, 6, 2, 98, 14, 0] := by
  with_unfolding_all rfl

theorem decode_blockwise_split :
    decode (.array .long) (blockwise splitLongs) .null = .ok (.array [.long 5, .long 6, .long 7]) ∧
      ∃ entries, decode (.map .long) (blockwise splitPairs) .null = .ok (.map entries) ∧
        Entries.find? "a" entries = some (.long 6) ∧ Entries.find? "b" entries = some (.long 7) := by
  obtain ⟨harray, hmap⟩ := decode_blockwise .null
  have hlongs : ∀ block ∈ splitLongs, ∀ part ∈ block.parts, Decoded .long part.1 part.2 := by
    simp only [splitLongs, List.forall_mem_cons]
    exact ⟨⟨rfl, rfl, fun _ h => absurd h List.not_mem_nil⟩, ⟨rfl, fun _ h => absurd h List.not_mem_nil⟩,
      fun _ h => absurd h List.not_mem_nil⟩
  have hkey : encodeText "a" = [2, 97] ∧ encodeText "b" = [2, 98] := by
    constructor <;> with_unfolding_all rfl
  have hpairs : ∀ block ∈ splitPairs, ∀ part ∈ block.parts, SpelledEntry .long part.1 part.2 := by
    simp only [splitPairs, List.forall_mem_cons, SpelledEntry, hkey]
    exact ⟨⟨⟨[10], rfl, rfl⟩, ⟨[12], rfl, rfl⟩, fun _ h => absurd h List.not_mem_nil⟩,
      ⟨⟨[14], rfl, rfl⟩, fun _ h => absurd h List.not_mem_nil⟩, fun _ h => absurd h List.not_mem_nil⟩
  obtain ⟨entries, hd, -, hfind⟩ := hmap .long splitPairs (by rw [blockwise_splitPairs]; decide) hpairs
  exact ⟨(harray .long splitLongs hlongs).2 (by decide), entries, hd, (hfind "a").trans rfl, (hfind "b").trans rfl⟩

end Docket.Blob
