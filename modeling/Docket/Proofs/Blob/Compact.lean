import Docket.Proofs.Blob.Typed

/-!
# Small blobs give small containers

Whatever stands inside a decoded value was read of a piece of the blob, by a part of
the schema. The items of an array and the entries of a map have pieces that do not
overlap, and none of them is shorter than the span of what it is read by. So the blob
has room for all of them, in however many blocks they come, and only items without a
span need a limit of their own.
-/
namespace Docket.Blob

variable {s part : Schema} {bytes piece : List UInt8} {value inner : Datum}

/-- In reading the value of the bytes by the schema, the inner value is read of the
piece by the part. What a later value of the same key takes the place of does not count. -/
inductive Reads : Schema → List UInt8 → Datum → Schema → List UInt8 → Datum → Prop where
  | self (s : Schema) (bytes : List UInt8) (value : Datum) : Reads s bytes value s bytes value
  | item {items part : Schema} {bytes piece : List UInt8} {rows : List (List (List UInt8 × Datum))}
      {item : List UInt8 × Datum} {inner : Datum} :
      Blocks (Decoded items) bytes rows → item ∈ rows.flatten → Reads items item.1 item.2 part piece inner →
      Reads (.array items) bytes (.array (rows.flatten.map Prod.snd)) part piece inner
  | entry {values part : Schema} {bytes name body piece : List UInt8}
      {rows : List (List (List UInt8 × String × Datum))} {entry : String × Datum} {inner : Datum} :
      Blocks (Entry (Decoded values)) bytes rows → (name ++ body, entry) ∈ rows.flatten →
      entry ∈ Entries.ofList (rows.flatten.map Prod.snd) → Yields readText name entry.1 →
      Decoded values body entry.2 → Reads values body entry.2 part piece inner →
      Reads (.map values) bytes (.map (Entries.ofList (rows.flatten.map Prod.snd))) part piece inner
  | field {name : String} {fields : List Field} {part : Schema} {piece : List UInt8}
      {row : List (List UInt8 × Datum)} {field : Field} {read : List UInt8 × Datum} {inner : Datum} :
      Fields Decoded fields row → (field, read) ∈ fields.zip row →
      Reads field.schema read.1 read.2 part piece inner →
      Reads (.record name fields) (joined row) (.record (row.map Prod.snd)) part piece inner
  | branch {branches : List Schema} {branch part : Schema} {head body piece : List UInt8} {index : Nat}
      {value inner : Datum} :
      Yields Varint.readNat head index → branches[index]? = some branch → Decoded branch body value →
      Reads branch body value part piece inner → Reads (.union branches) (head ++ body) value part piece inner

namespace Reads

theorem within (h : Reads s bytes value part piece inner) : inner.Within value := by
  induction h with
  | self => exact .self _
  | item _ hm _ ih => exact .item (List.mem_map_of_mem hm) ih
  | entry _ _ hm _ _ _ ih => exact .entry hm ih
  | field _ hm _ ih => exact .field (List.mem_map_of_mem (List.of_mem_zip hm).2) ih
  | branch _ _ _ _ ih => exact ih

theorem length_le (h : Reads s bytes value part piece inner) : piece.length ≤ bytes.length := by
  induction h with
  | self => exact Nat.le_refl _
  | item hb hm _ ih => exact Nat.le_trans ih (Nat.le_of_lt (hb.length_part_lt hm))
  | entry hb hm _ _ _ _ ih =>
      have he := hb.length_part_lt hm
      rw [List.length_append] at he
      omega
  | field _ hm _ ih => exact Nat.le_trans ih (length_le_joined (List.of_mem_zip hm).2)
  | branch _ _ _ _ ih =>
      rw [List.length_append]
      exact Nat.le_add_left_of_le ih

/-- What is read inside a value is decoded of its piece. -/
theorem decoded (h : Reads s bytes value part piece inner) (hd : Decoded s bytes value) :
    Decoded part piece inner := by
  induction h with
  | self => exact hd
  | item hb hm _ ih => exact ih (hb.part _ hm)
  | entry _ _ _ _ hv _ ih => exact ih hv
  | field hf hm _ ih => exact ih ((List.forall₂_iff_zip.1 hf).2 hm)
  | branch _ _ hb _ ih => exact ih hb

end Reads

/-- The parts of a value are those that its schema reads. -/
theorem exists_reads (h : Decoded s bytes value) (hw : inner.Within value) :
    ∃ part piece, Reads s bytes value part piece inner := by
  induction s using Schema.children_induction generalizing bytes value with
  | step s ih =>
    cases s with
    | array items =>
        obtain ⟨rows, hb, -, rfl⟩ := decode_array_eq_ok_iff.1 h
        cases hw with
        | self => exact ⟨_, _, .self _ _ _⟩
        | item hm hi =>
            obtain ⟨item, hrow, rfl⟩ := List.mem_map.1 hm
            obtain ⟨part, piece, hr⟩ := ih items (List.mem_singleton_self _) (hb.part item hrow) hi
            exact ⟨part, piece, .item hb hrow hr⟩
    | map values =>
        obtain ⟨rows, hb, -, rfl⟩ := decode_map_eq_ok_iff.1 h
        cases hw with
        | self => exact ⟨_, _, .self _ _ _⟩
        | entry hm hi =>
            obtain ⟨⟨bytes, entry⟩, hrow, rfl⟩ := List.mem_map.1 (Entries.mem_of_mem_ofList hm)
            obtain ⟨name, body, rfl, hk, hv⟩ := hb.part _ hrow
            obtain ⟨part, piece, hr⟩ := ih values (List.mem_singleton_self _) hv hi
            exact ⟨part, piece, .entry hb hrow hm hk hv hr⟩
    | record name fields =>
        obtain ⟨row, hf, rfl, rfl⟩ := decode_record_eq_ok_iff.1 h
        cases hw with
        | self => exact ⟨_, _, .self _ _ _⟩
        | field hm hi =>
            obtain ⟨read, hrow, rfl⟩ := List.mem_map.1 hm
            rw [← List.map_snd_zip (Nat.le_of_eq hf.length_eq.symm)] at hrow
            obtain ⟨⟨field, read⟩, hz, rfl⟩ := List.mem_map.1 hrow
            have hv := (List.forall₂_iff_zip.1 hf).2 hz
            obtain ⟨part, piece, hr⟩ := ih field.schema (List.mem_map_of_mem (List.of_mem_zip hz).1) hv hi
            exact ⟨part, piece, .field hf hz hr⟩
    | union branches =>
        obtain ⟨head, body, index, branch, rfl, hh, hp, hb⟩ := decode_union_eq_ok_iff.1 h
        obtain ⟨part, piece, hr⟩ := ih branch (List.mem_of_getElem? hp) hb hw
        exact ⟨part, piece, .branch hh hp hb hr⟩
    | _ =>
        -- a scalar has no part but itself
        cases (belongs_of_decoded h).admits
        cases hw
        exact ⟨_, _, .self _ _ _⟩

/-- No container has more parts than a number of bytes has room for, each taking up
the span of its schema, and an entry a byte for its key besides. The width that
reading goes by is the span, or less where a word cannot hold it. -/
def Compact (n : Nat) : Schema → Datum → Prop
  | .array items, .array listed =>
      (0 < items.span → listed.length ≤ n / items.span) ∧ (items.width = 0 → listed.length ≤ zeroWidthLimit)
  | .map values, .map entries => entries.length ≤ n / (1 + values.span)
  | _, _ => True

theorem Compact.mono {m n : Nat} (h : Compact m s value) (hmn : m ≤ n) : Compact n s value := by
  unfold Compact at h ⊢
  split at h
  · exact ⟨fun hs => Nat.le_trans (h.1 hs) (Nat.div_le_div_right hmn), h.2⟩
  · exact Nat.le_trans h (Nat.div_le_div_right hmn)
  · exact trivial

/-- By the width there is as much room or more. -/
theorem Compact.length_le_div_width {n : Nat} {items : Schema} {listed : List Datum}
    (h : Compact n (.array items) (.array listed)) (hw : items.width ≠ 0) :
    listed.length ≤ n / items.width.toNat := by
  have hpos : 0 < items.width.toNat := Nat.pos_of_ne_zero fun hz => hw (UInt64.toNat_inj.1 hz)
  have hle : items.width.toNat ≤ items.span := by
    rw [Schema.toNat_width]
    exact Nat.mod_le _ _
  exact Nat.le_trans (h.1 (Nat.lt_of_lt_of_le hpos hle)) (Nat.div_le_div_left hle hpos)

theorem span_lt_length_entry {values : Schema} {entry : String × Datum} (h : Entry (Decoded values) bytes entry) :
    1 + values.span ≤ bytes.length := by
  obtain ⟨name, body, rfl, hk, hv⟩ := h
  rw [List.length_append]
  exact Nat.add_le_add (takes_readText.of_yields hk).length_le (span_le_of_decode hv)

theorem compact_of_decoded (h : Decoded s bytes value) : Compact bytes.length s value := by
  unfold Compact
  split
  · obtain ⟨rows, hb, hl, hv⟩ := decode_array_eq_ok_iff.1 h
    obtain rfl := Datum.array.inj hv
    rw [List.length_map]
    refine ⟨fun hs => ?_, hl⟩
    rw [Nat.le_div_iff_mul_le hs]
    exact Nat.le_of_lt (hb.length_mul_lt fun item hm => span_le_of_decode (hb.part item hm))
  · obtain ⟨rows, hb, -, hv⟩ := decode_map_eq_ok_iff.1 h
    obtain rfl := Datum.map.inj hv
    rw [Nat.le_div_iff_mul_le (Nat.add_pos_left Nat.one_pos _)]
    have hlength := Entries.length_ofList_le (rows.flatten.map Prod.snd)
    rw [List.length_map] at hlength
    calc
      _ ≤ rows.flatten.length * _ := Nat.mul_le_mul_right _ hlength
      _ ≤ bytes.length := Nat.le_of_lt (hb.length_mul_lt fun entry hm => span_lt_length_entry (hb.part entry hm))
  · exact trivial

/-- Whatever stands in a decoded value was read by a part of the schema, and where that
is an array or a map, the whole blob has room for all its items or entries; items
without width are limited. -/
theorem decode_compact {old : Datum} (h : decode s bytes old = .ok value) :
    (∀ inner : Datum, inner.Within value ↔ ∃ part piece, Reads s bytes value part piece inner) ∧
      ∀ part piece inner, Reads s bytes value part piece inner → Compact bytes.length part inner := by
  have hd : Decoded s bytes value := decode_eq_ok_iff_blobs.2 (decode_eq_ok_iff_blobs.1 h)
  constructor
  · intro inner
    exact ⟨exists_reads hd, fun ⟨part, piece, hr⟩ => hr.within⟩
  · intro part piece inner hr
    exact (compact_of_decoded (hr.decoded hd)).mono hr.length_le

/-- The map in the hand, as it is read of two blocks. -/
def heldCards : Datum :=
  .map [("a", .array [.enum "spades", .enum "clubs"]), ("b", .int (-3))]

/-- The map of two entries takes 18 bytes; the blob of 20 bytes would have room for ten
entries. -/
theorem decode_compact_hand :
    decode handSchema handBytes .null = .ok (.record [heldCards, .fixed [7, 8]]) ∧
      (∃ part piece, Reads handSchema handBytes (.record [heldCards, .fixed [7, 8]]) part piece
        (.array [.enum "spades", .enum "clubs"])) ∧
      Compact 20 (.map (.union [.int, .array (.enum "suit" ["clubs", "spades"])])) heldCards := by
  have h : decode handSchema handBytes .null = .ok (.record [heldCards, .fixed [7, 8]]) := rfl
  obtain ⟨hparts, hcompact⟩ := decode_compact h
  have hcards : (Datum.array [.enum "spades", .enum "clubs"]).Within (.record [heldCards, .fixed [7, 8]]) :=
    .field List.mem_cons_self (.entry List.mem_cons_self (.self _))
  have hrow : Fields Decoded
      [⟨"held", .map (.union [.int, .array (.enum "suit" ["clubs", "spades"])]), none⟩, ⟨"key", .fixed "key" 2, none⟩]
      [(handBytes.take 18, heldCards), ([7, 8], .fixed [7, 8])] :=
    .cons rfl (.cons rfl .nil)
  have hheld : Reads handSchema handBytes (.record [heldCards, .fixed [7, 8]])
      (.map (.union [.int, .array (.enum "suit" ["clubs", "spades"])])) (handBytes.take 18) heldCards :=
    .field hrow List.mem_cons_self (.self _ _ _)
  exact ⟨h, (hparts _).1 hcards, hcompact _ _ _ hheld⟩

end Docket.Blob
