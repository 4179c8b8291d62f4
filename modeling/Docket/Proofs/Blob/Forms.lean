import Docket.Proofs.Blob.Blocks
import Docket.Proofs.Blob.Reuse
import Docket.Proofs.Parts
import Mathlib.Data.List.Forall2

/-!
# The forms of a blob

Which bytes are a blob of a schema, and of which value, is told by the blobs of the
schemas inside it: an array is its items in blocks, a map its keys and values in
blocks, a record its fields one after the other, a union the place of a branch and a
value of the branch. Nothing else is read, and every blob is as long as the span of
its schema. One induction over the schema carries this; the two guards, and the value
that is overwritten, make no difference to it.
-/
namespace Docket.Blob

variable {guard : Guard} {bytes : List UInt8} {value : Datum}

/-- The bytes are a blob of the schema: as long as its span, and read as the value. -/
def Blobs (guard : Guard) (s : Schema) : List UInt8 → Datum → Prop :=
  Enough s.span (readDatum guard s .null)

theorem Blobs.yields {s : Schema} (h : Blobs guard s bytes value) (old : Datum) :
    Yields (readDatum guard s old) bytes value := by
  rw [forgets_readDatum guard s old .null]
  exact Enough.yields h

theorem Blobs.settles {s : Schema} (h : Blobs guard s bytes value) (old : Datum) :
    Settles (readDatum guard s old) bytes value True :=
  (h.yields old).settles trivial

theorem Blobs.width_le {s : Schema} (h : Blobs guard s bytes value) : s.width.toNat ≤ bytes.length := by
  rw [Schema.toNat_width]
  exact Nat.le_trans (Nat.mod_le _ _) (Enough.length_le h)

/-! ### Arrays and maps -/

theorem blobs_array {items : Schema} {rows : List (List (List UInt8 × Datum))}
    (h : Blocks (Blobs guard items) bytes rows) (hw : items.width = 0 → rows.flatten.length ≤ zeroWidthLimit) :
    Blobs guard (.array items) bytes (.array (rows.flatten.map Prod.snd)) where
  length_le := Nat.lt_of_le_of_lt (Nat.zero_le _) h.length_joined_lt
  yields := (settles_blocks_array (p := fun _ => True) (fun h => h.settles) (fun h => h.width_le) h .null).yields
    ⟨hw, fun _ _ => trivial⟩

theorem blobs_map {values : Schema} {rows : List (List (List UInt8 × String × Datum))} {old : Datum}
    (h : Blocks (Entry (Blobs guard values)) bytes rows)
    (ha : Allowed values.entryWidth Pairs.count Pairs.putEntry (.reusing old) rows) :
    Blobs guard (.map values) bytes (.map (Entries.ofList (rows.flatten.map Prod.snd))) where
  length_le := Nat.lt_of_le_of_lt (Nat.zero_le _) h.length_joined_lt
  yields := by
    have hs := settles_blocks_map (p := fun _ => True) (fun h => h.settles) (fun h => h.width_le) h old
    rw [forgets_readDatum guard (.map values) .null old]
    exact hs.yields ⟨ha, fun _ _ => trivial⟩

/-! ### Records and unions -/

/-- The parts are those of the fields, in their order. -/
abbrev Fields (P : Schema → List UInt8 → Datum → Prop) (fields : List Field) (row : List (List UInt8 × Datum)) : Prop :=
  List.Forall₂ (fun field part => P field.schema part.1 part.2) fields row

theorem takes_readFields {P : Schema → List UInt8 → Datum → Prop} {fields : List Field}
    (hf : ∀ field ∈ fields, ∀ old, Takes (readDatum guard field.schema old) (P field.schema)) (old : List Datum) :
    Takes (readFields guard fields old) fun bytes values =>
      ∃ row, Fields P fields row ∧ joined row = bytes ∧ row.map Prod.snd = values := by
  induction fields generalizing old with
  | nil => exact takes_pure ⟨[], .nil, rfl, rfl⟩
  | cons field fields ih =>
      obtain ⟨name, schema, default⟩ := field
      obtain ⟨hhead, hrest⟩ := List.forall_mem_cons.1 hf
      refine (hhead (old.headD .null)).bind fun {part first} hp => ?_
      refine (ih hrest old.tail).bind fun h => ?_
      obtain ⟨row, hrow, rfl, rfl⟩ := h
      refine takes_pure ⟨(part, first) :: row, .cons hp hrow, ?_, rfl⟩
      rw [joined_cons, List.append_nil]

theorem yields_readFields {fields : List Field} {row : List (List UInt8 × Datum)}
    (h : Fields (Blobs guard) fields row) (old : List Datum) :
    Yields (readFields guard fields old) (joined row) (row.map Prod.snd) := by
  induction h generalizing old with
  | nil => exact yields_pure []
  | @cons field part _ row hp _ ih =>
      obtain ⟨name, schema, default⟩ := field
      exact (hp.yields (old.headD .null)).bind ((ih old.tail).map (part.2 :: ·))

theorem fieldsSpan_le_joined {fields : List Field} {row : List (List UInt8 × Datum)}
    (h : Fields (Blobs guard) fields row) : Schema.fieldsSpan fields ≤ (joined row).length := by
  induction h with
  | nil => exact Nat.le_refl 0
  | @cons field part _ row hp _ ih =>
      obtain ⟨name, schema, default⟩ := field
      rw [Schema.fieldsSpan, joined_cons, List.length_append]
      exact Nat.add_le_add (Enough.length_le hp) ih

theorem blobs_record {name : String} {fields : List Field} {row : List (List UInt8 × Datum)}
    (h : Fields (Blobs guard) fields row) :
    Blobs guard (.record name fields) (joined row) (.record (row.map Prod.snd)) where
  length_le := fieldsSpan_le_joined h
  yields := (yields_readFields h _).map Datum.record

theorem takes_readBranch {P : Schema → List UInt8 → Datum → Prop} {branches : List Schema}
    (hb : ∀ branch ∈ branches, ∀ old, Takes (readDatum guard branch old) (P branch))
    (count index position : Nat) (old : Datum) : Takes (readBranch guard count index branches position old)
      fun bytes value => ∃ branch, branches[position]? = some branch ∧ P branch bytes value := by
  induction branches generalizing position with
  | nil => exact takes_fail _
  | cons branch branches ih =>
      obtain ⟨hhead, hrest⟩ := List.forall_mem_cons.1 hb
      cases position with
      | zero => exact (hhead _).imp fun h => ⟨branch, rfl, h⟩
      | succ position => exact ih hrest position

theorem yields_readBranch {branches : List Schema} {position : Nat} {branch : Schema}
    (hp : branches[position]? = some branch) (h : Blobs guard branch bytes value) (count index : Nat) (old : Datum) :
    Yields (readBranch guard count index branches position old) bytes value := by
  induction branches generalizing position with
  | nil => cases hp
  | cons first branches ih =>
      cases position with
      | zero =>
          cases hp
          exact h.yields _
      | succ position => exact ih hp

theorem blobs_union {branches : List Schema} {head body : List UInt8} {index : Nat} {branch : Schema}
    (hh : Yields Varint.readNat head index) (hp : branches[index]? = some branch)
    (h : Blobs guard branch body value) : Blobs guard (.union branches) (head ++ body) value where
  length_le := by
    rw [List.length_append]
    exact Nat.le_add_right_of_le (Varint.takes_readNat.of_yields hh).length_le
  yields := hh.bind (yields_readBranch hp h branches.length index .null)

/-! ### Every schema -/

/-- What is read by one guard is a blob by the other one as well. -/
theorem takes_readDatum (guard other : Guard) (s : Schema) : ∀ old, Takes (readDatum guard s old) (Blobs other s) := by
  induction s using Schema.children_induction with
  | step s ih =>
    intro old
    cases s with
    | null => exact takes_pure (enough_pure _)
    | boolean =>
        refine takes_bind takes_byte fun b => ?_
        split
        · exact takes_pure (enough_pure _)
        · split
          · exact takes_pure (enough_pure _)
          · exact takes_fail _
    | int => exact takes_map Varint.takes_readInt Datum.int
    | long => exact takes_map Varint.takes_read Datum.long
    | float => exact takes_map (takes_slice 4) fun bytes => Datum.float (ofLittleEndian bytes).toUInt32
    | double => exact takes_map (takes_slice 8) fun bytes => Datum.double (ofLittleEndian bytes).toUInt64
    | string => exact takes_map takes_readText Datum.string
    | bytes => exact takes_map takes_readBytes Datum.bytes
    | enum name symbols =>
        refine takes_bind Varint.takes_readNat fun ordinal => ?_
        split
        · exact takes_pure (enough_pure _)
        · exact takes_fail _
    | fixed name size => exact takes_map (takes_slice size.toNat) Datum.fixed
    | array items =>
        refine (takes_array (ih items (List.mem_singleton_self _)) old).imp fun h => ?_
        obtain ⟨rows, hrows, hw, rfl⟩ := h
        exact blobs_array hrows hw
    | map values =>
        refine (takes_map_blocks (ih values (List.mem_singleton_self _)) old).imp fun h => ?_
        obtain ⟨rows, hrows, ha, rfl⟩ := h
        exact blobs_map hrows ha
    | record name fields =>
        refine (takes_readFields (List.forall_mem_map.1 ih) _).bind fun h => ?_
        obtain ⟨row, hrow, rfl, rfl⟩ := h
        refine takes_pure ?_
        rw [List.append_nil]
        exact blobs_record hrow
    | union branches =>
        refine Varint.takes_readNat.bind fun hh => (takes_readBranch ih branches.length _ _ old).imp fun h => ?_
        obtain ⟨branch, hp, hb⟩ := h
        exact blobs_union hh.yields hp hb

/-- A blob is one by either guard: by the one it is yielded, and what is yielded is taken by both. -/
theorem Blobs.by_guard {other : Guard} {s : Schema} (h : Blobs other s bytes value) (guard : Guard) :
    Blobs guard s bytes value :=
  (takes_readDatum other guard s .null).of_yields (h.yields .null)

/-! ### Decoding -/

/-- What is decoded by one guard is a blob by the other one as well, over whatever old value. -/
theorem decodeWith_eq_ok_iff_blobs {other : Guard} {s : Schema} {old : Datum} :
    decodeWith guard s bytes old = .ok value ↔ Blobs other s bytes value := by
  rw [decodeWith_eq_ok_iff]
  constructor
  · rintro ⟨offset, h⟩
    obtain ⟨taken, hb, ht⟩ := takes_readDatum guard other s old h
    obtain rfl : bytes = taken := hb.trans (List.append_nil taken)
    exact ht
  · intro h
    have hy := (h.by_guard guard).yields old 0 []
    rw [List.append_nil] at hy
    exact ⟨_, hy⟩

theorem decode_eq_ok_iff_blobs {s : Schema} {old : Datum} :
    decode s bytes old = .ok value ↔ Blobs .everyBlock s bytes value :=
  decode_eq_ok_iff_everyBlock.trans decodeWith_eq_ok_iff_blobs

/-- A blob is as long as the span of its schema. -/
theorem span_le_of_decode {s : Schema} {old : Datum} (h : decode s bytes old = .ok value) :
    s.span ≤ bytes.length :=
  Enough.length_le (decode_eq_ok_iff_blobs.1 h)

/-- The value is decoded of the bytes. -/
def Decoded (s : Schema) (bytes : List UInt8) (value : Datum) : Prop :=
  decode s bytes .null = .ok value

theorem blobs_eq_decoded (s : Schema) : Blobs .everyBlock s = Decoded s := by
  funext bytes value
  exact propext decode_eq_ok_iff_blobs.symm

theorem takes_decoded (s : Schema) (old : Datum) : Takes (readDatum .everyBlock s old) (Decoded s) := by
  rw [← blobs_eq_decoded]
  exact takes_readDatum .everyBlock .everyBlock s old

theorem decode_array_eq_ok_iff {items : Schema} {old : Datum} :
    decode (.array items) bytes old = .ok value ↔ ∃ rows, Blocks (Decoded items) bytes rows ∧
      (items.width = 0 → rows.flatten.length ≤ zeroWidthLimit) ∧ value = .array (rows.flatten.map Prod.snd) := by
  rw [decode_eq_ok_iff_blobs]
  constructor
  · intro h
    exact (takes_array (takes_decoded items) .null).of_yields (h.yields .null)
  · rintro ⟨rows, hrows, hw, rfl⟩
    rw [← blobs_eq_decoded] at hrows
    exact blobs_array hrows hw

theorem decode_map_eq_ok_iff {values : Schema} {old : Datum} :
    decode (.map values) bytes old = .ok value ↔ ∃ rows, Blocks (Entry (Decoded values)) bytes rows ∧
      Allowed values.entryWidth Pairs.count Pairs.putEntry (.reusing .null) rows ∧
      value = .map (Entries.ofList (rows.flatten.map Prod.snd)) := by
  rw [decode_eq_ok_iff_blobs]
  constructor
  · intro h
    exact (takes_map_blocks (takes_decoded values) .null).of_yields (h.yields .null)
  · rintro ⟨rows, hrows, ha, rfl⟩
    rw [← blobs_eq_decoded] at hrows
    exact blobs_map hrows ha

theorem decode_record_eq_ok_iff {name : String} {fields : List Field} {old : Datum} :
    decode (.record name fields) bytes old = .ok value ↔ ∃ row, Fields Decoded fields row ∧ joined row = bytes ∧
      value = .record (row.map Prod.snd) := by
  rw [decode_eq_ok_iff_blobs]
  constructor
  · intro h
    have hr : Takes (readDatum .everyBlock (.record name fields) .null) fun bytes value =>
        ∃ row, Fields Decoded fields row ∧ joined row = bytes ∧ value = .record (row.map Prod.snd) := by
      refine (takes_readFields (P := Decoded) (fun field _ => takes_decoded field.schema) _).bind fun h => ?_
      obtain ⟨row, hrow, rfl, rfl⟩ := h
      exact takes_pure ⟨row, hrow, (List.append_nil _).symm, rfl⟩
    exact hr.of_yields (h.yields .null)
  · rintro ⟨row, hrow, rfl, rfl⟩
    exact blobs_record (hrow.imp fun field part h => by rw [blobs_eq_decoded]; exact h)

theorem decode_union_eq_ok_iff {branches : List Schema} {old : Datum} :
    decode (.union branches) bytes old = .ok value ↔ ∃ head body index branch, bytes = head ++ body ∧
      Yields Varint.readNat head index ∧ branches[index]? = some branch ∧ Decoded branch body value := by
  rw [decode_eq_ok_iff_blobs]
  constructor
  · intro h
    have hr : Takes (readDatum .everyBlock (.union branches) .null) fun bytes value =>
        ∃ head body index branch, bytes = head ++ body ∧ Yields Varint.readNat head index ∧
          branches[index]? = some branch ∧ Decoded branch body value := by
      refine Varint.takes_readNat.bind fun {head index} hh => ?_
      refine (takes_readBranch (fun branch _ => takes_decoded branch) branches.length index index .null).imp
        fun {body value} h => ?_
      obtain ⟨branch, hp, hb⟩ := h
      exact ⟨head, body, index, branch, rfl, hh.yields, hp, hb⟩
    exact hr.of_yields (h.yields .null)
  · rintro ⟨head, body, index, branch, rfl, hh, hp, hb⟩
    rw [← blobs_eq_decoded] at hb
    exact blobs_union hh hp hb

end Docket.Blob
