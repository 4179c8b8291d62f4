import Docket.Proofs.Blob.Least
import Docket.Proofs.Blob.Stopping

/-!
# Where the sums of widths stay in a word

Decoding with checked sums decodes as ever, or stops. Over blobs of whatever length it
never stops exactly if the width fits at every array and every map in the schema. Where
one does not fit, the schema tells how long a blob has to be for decoding to stop over
it. That may be longer than any memory, as a field of 2^63 bytes may stand before the
array; blobs up to a given length are a condition of their own.
-/
namespace Docket

namespace Schema

/-- A word holds the span of the items, if the schema is an array, and of the entries, if
it is a map. -/
def WidthFits : Schema → Prop
  | array items => items.span < 2 ^ 64
  | map values => 1 + values.span < 2 ^ 64
  | _ => True

instance : DecidablePred WidthFits
  | array items => inferInstanceAs (Decidable (items.span < 2 ^ 64))
  | map values => inferInstanceAs (Decidable (1 + values.span < 2 ^ 64))
  | null | boolean | int | long | float | double | string | bytes | enum _ _ | fixed _ _ | record _ _ | union _ =>
      isTrue trivial

theorem ite_map_eq_nil_iff {p : Prop} [Decidable p] {f : Nat → Nat} {lengths : List Nat} :
    (if p then lengths.map f else [0]) = [] ↔ p ∧ lengths = [] := by
  by_cases hp : p
  · rw [if_pos hp, List.map_eq_nil_iff, and_iff_right hp]
  · rw [if_neg hp]
    exact iff_of_false (List.cons_ne_nil _ _) fun h => hp h.1

theorem fieldsStopLengths_eq_nil_iff {fields : List Field} :
    fieldsStopLengths fields = [] ↔ ∀ field ∈ fields, field.schema.stopLengths = [] := by
  induction fields with
  | nil => exact iff_of_true rfl fun _ hm => absurd hm List.not_mem_nil
  | cons field fields ih =>
      obtain ⟨name, schema, default⟩ := field
      rw [fieldsStopLengths, List.append_eq_nil_iff, List.map_eq_nil_iff, ih, List.forall_mem_cons]

theorem stopLengths_union_eq_nil_iff {branches : List Schema} :
    (union branches).stopLengths = [] ↔ ∀ branch ∈ branches, branch.stopLengths = [] := by
  simp only [List.eq_nil_iff_forall_not_mem]
  constructor
  · intro h branch hm length hl
    obtain ⟨index, hb⟩ := List.getElem?_of_mem hm
    exact h _ (mem_stopLengths_union.2 ⟨index, branch, hb, length, hl, rfl⟩)
  · intro h n hn
    obtain ⟨index, branch, hb, length, hl, -⟩ := mem_stopLengths_union.1 hn
    exact h branch (List.mem_of_getElem? hb) length hl

/-- Nothing leads to a sum that a word cannot hold exactly if there is none. -/
theorem stopLengths_eq_nil_iff {s : Schema} : s.stopLengths = [] ↔ s.Everywhere WidthFits := by
  induction s using children_induction with
  | step s ih =>
    cases s with
    | array items =>
        rw [everywhere_array, ← ih items (List.mem_singleton_self _), stopLengths, WidthFits, ite_map_eq_nil_iff]
    | map values =>
        rw [everywhere_map, ← ih values (List.mem_singleton_self _), stopLengths, WidthFits, ite_map_eq_nil_iff]
    | record name fields =>
        have hfields : (∀ field ∈ fields, field.schema.stopLengths = []) ↔
            ∀ field ∈ fields, field.schema.Everywhere WidthFits :=
          forall₂_congr fun field hm => ih field.schema (List.mem_map_of_mem hm)
        rw [everywhere_record, stopLengths, fieldsStopLengths_eq_nil_iff, hfields]
        exact (and_iff_right trivial).symm
    | union branches =>
        rw [everywhere_union, stopLengths_union_eq_nil_iff]
        exact (forall₂_congr ih).trans (and_iff_right trivial).symm
    | _ => exact iff_of_true rfl ((everywhere_scalar rfl).2 trivial)

end Schema

namespace Blob

theorem decode_eq_whole (s : Schema) (bytes : List UInt8) (old : Datum) :
    decode s bytes old = Checked.whole (readDatum .everyBlock s old (.start bytes)) := by
  unfold decode decodeWith Checked.whole
  cases readDatum .everyBlock s old (.start bytes) with
  | error fault => rfl
  | ok result =>
      dsimp only
      split <;> rfl

theorem checked_decode_cases (s : Schema) (bytes : List UInt8) (old : Datum) :
    Checked.decode s bytes old = some (decode s bytes old) ∨
      Reached s.stopLengths bytes.length ∧ Checked.decode s bytes old = none := by
  rw [Checked.decode, decode_eq_whole]
  rcases tracks s old (.start bytes) with h | ⟨hn, h⟩
  · exact .inl (by rw [h]; rfl)
  · exact .inr ⟨hn, by rw [h]; rfl⟩

theorem exists_checked_decode_eq_none {s : Schema} (hs : s.Sound) (hc : s.Countable) {n : Nat}
    (hn : n ∈ s.stopLengths) : ∃ bytes : List UInt8, bytes.length = n ∧ ∀ old, Checked.decode s bytes old = none := by
  obtain ⟨bytes, hlen, hstop⟩ := halts hs hc n hn
  refine ⟨bytes, hlen, fun old => ?_⟩
  have hnone := hstop old 0 []
  rw [List.append_nil] at hnone
  rw [Checked.decode, Cursor.start, hnone]
  rfl

/-- Over blobs of so many bytes at most decoding never stops exactly if it takes more
bytes to come to any sum that a word cannot hold. -/
theorem checked_decode_within_iff {s : Schema} (hs : s.Sound) (hc : s.Countable) (limit : Nat) :
    (∀ bytes : List UInt8, bytes.length ≤ limit → ∀ old, Checked.decode s bytes old ≠ none) ↔
      ∀ n ∈ s.stopLengths, limit < n := by
  constructor
  · intro h n hn
    obtain ⟨bytes, rfl, hnone⟩ := exists_checked_decode_eq_none hs hc hn
    exact Nat.not_le.1 fun hle => h bytes hle .null (hnone .null)
  · intro h bytes hl old hnone
    rcases checked_decode_cases s bytes old with he | ⟨⟨n, hn, hle⟩, -⟩
    · rw [hnone] at he
      cases he
    · exact absurd (h n hn) (Nat.not_lt.2 (Nat.le_trans hle hl))

/-- Rows of two halves are too wide, and they stand behind another half: a memory that
cannot hold 2^63 bytes has no blob that comes to them. -/
example : (Schema.record "table" [⟨"head", .fixed "half" 9223372036854775808, none⟩,
    ⟨"rows", .array (.record "row" [⟨"low", .fixed "half" 9223372036854775808, none⟩,
      ⟨"high", .fixed "half" 9223372036854775808, none⟩]), none⟩]).stopLengths = [2 ^ 63] := by
  decide

/-- By a schema that passes its check every blob, however long, is read without a sum
that a word cannot hold if and only if the width fits at every array and every map in
it. Every blob up to a given length, which may be what a memory holds, is read so if and
only if that is too short to come to such a sum. Where none is met, checking changes
nothing. The width of items or entries is the least number of bytes of one exactly if it
fits and no union stands in the way: a union counts one byte, for the place of its
branch, whatever its branches take. -/
theorem checked_decode_iff {s : Schema} (hs : s.check = .ok ()) (hb : s.Built) (hc : s.Countable) :
    ((∀ bytes old, Checked.decode s bytes old ≠ none) ↔ s.Everywhere Schema.WidthFits) ∧
      (∀ limit : Nat, (∀ bytes : List UInt8, bytes.length ≤ limit → ∀ old, Checked.decode s bytes old ≠ none) ↔
        ∀ n ∈ s.stopLengths, limit < n) ∧
      (∀ bytes old, Checked.decode s bytes old ≠ none → Checked.decode s bytes old = some (decode s bytes old)) ∧
      ∀ part : Schema, part.Within s →
        (Least (Decoded part) part.width.toNat ↔ part.span < 2 ^ 64 ∧ part.Snug) ∧
          (Least (Entry (Decoded part)) part.entryWidth.toNat ↔ 1 + part.span < 2 ^ 64 ∧ part.Snug) := by
  have hsound : s.Sound := (Schema.check_eq_ok_iff hb).1 hs
  refine ⟨?_, checked_decode_within_iff hsound hc, fun bytes old h => ?_, fun part hp => ?_⟩
  · rw [← Schema.stopLengths_eq_nil_iff]
    constructor
    · intro h
      refine List.eq_nil_iff_forall_not_mem.2 fun n hn => ?_
      exact absurd ((checked_decode_within_iff hsound hc n).1 (fun bytes _ => h bytes) n hn) (Nat.lt_irrefl n)
    · intro h bytes
      refine (checked_decode_within_iff hsound hc bytes.length).2 (fun n hn => ?_) bytes (Nat.le_refl _)
      rw [h] at hn
      cases hn
  · exact (checked_decode_cases s bytes old).resolve_right fun hn => h hn.2
  · have hpart : part.Sound := fun inner hi => hsound inner (hi.trans hp)
    have hcount : part.Countable := fun inner hi => hc inner (hi.trans hp)
    exact ⟨least_width_iff hpart hcount, least_entryWidth_iff hpart hcount⟩

/-- Every blob of the hand is read without a sum that is too large. Of the union in it
one byte is counted, and no value of it is that short. -/
theorem checked_decode_hand :
    (∀ bytes old, Checked.decode handSchema bytes old = some (decode handSchema bytes old)) ∧
      ¬Least (Decoded (.union [.int, .array (.enum "suit" ["clubs", "spades"])])) 1 := by
  obtain ⟨hfits, -, hsame, hleast⟩ := checked_decode_iff (s := handSchema) rfl (by decide) (by decide)
  have hunion : (Schema.union [.int, .array (.enum "suit" ["clubs", "spades"])]).Within handSchema :=
    .field List.mem_cons_self (.values (.self _))
  refine ⟨fun bytes old => hsame bytes old (hfits.2 (by decide) bytes old), fun h => ?_⟩
  obtain ⟨-, branch, hm, hz⟩ := (hleast _ hunion).1.1 h
  rcases List.mem_pair.1 hm with rfl | rfl <;> cases hz

/-- A row of two halves, which together are wider than a word can count. -/
def wideRow : Schema :=
  .record "row" [⟨"low", .fixed "half" 9223372036854775808, none⟩, ⟨"high", .fixed "half" 9223372036854775808, none⟩]

theorem span_wideRow : wideRow.span = 2 ^ 64 := by
  decide

/-- Rows pass the check, and with checked sums no blob of them is read. With sums that
wrap, a row has no width at all: a block of one row passes before a single byte, and
it is the row that is found too short. -/
theorem checked_decode_wideRow :
    (Schema.array wideRow).check = .ok () ∧ (Schema.array wideRow).Built ∧ (Schema.array wideRow).Countable ∧
      (∀ bytes old, Checked.decode (.array wideRow) bytes old = none) ∧ wideRow.width = 0 ∧
      decode (.array wideRow) [2, 0] .null = .error (.malformed (.shortage (2 ^ 63) 1 1)) := by
  have hstop : ∀ bytes old, Checked.decode (.array wideRow) bytes old = none := by
    intro bytes old
    rw [Checked.decode, Checked.readDatum, Schema.width?_eq, span_wideRow]
    rfl
  have hslice : slice (2 ^ 63) ⟨1, [0]⟩ = .error (.shortage (2 ^ 63) 1 1) := by
    rw [slice, shorter_eq]
    rfl
  have hrow : ∀ old, readDatum .everyBlock wideRow old ⟨1, [0]⟩ = .error (.shortage (2 ^ 63) 1 1) :=
    fun old => bind_of_error (bind_of_error (bind_of_error hslice))
  have hblock : readBlocks .everyBlock wideRow.width Slots.filled (readItems (readDatum .everyBlock wideRow)) [2, 0]
      (.reusing .null) (.start [2, 0]) = .error (.shortage (2 ^ 63) 1 1) := by
    have hcount : Varint.readCount (.start [2, 0]) = .ok (1, ⟨1, [0]⟩) := rfl
    rw [readBlocks, bind_of_ok hcount, if_neg Nat.one_ne_zero]
    rw [bind_of_ok (checkBlock_of_fits (Nat.zero_le _) fun _ => by decide)]
    exact bind_of_error (bind_of_error (hrow _))
  have hrest : remaining (.start [2, 0]) = .ok ([2, 0], .start [2, 0]) := rfl
  have hread : readDatum .everyBlock (.array wideRow) .null (.start [2, 0]) = .error (.shortage (2 ^ 63) 1 1) :=
    (bind_of_ok hrest).trans (bind_of_error hblock)
  refine ⟨rfl, by decide, by decide, hstop, by decide, ?_⟩
  rw [decode_eq_whole, hread]
  rfl

end Blob

end Docket
