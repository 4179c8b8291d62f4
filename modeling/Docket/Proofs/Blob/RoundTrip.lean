import Docket.Proofs.Blob.Blocks
import Docket.Proofs.Blob.Layout

/-!
# A blob is read as the value it was written from

By a schema whose widths a word can count, the blob of a value is read back as
that value, over any old value and with any bytes behind it, if the value is
roomy; if it is not, the first array that is too long for its items stops the
reading. The guard that holds counts against the bytes that remain never strikes,
because every item takes up at least the width it is charged with.
-/
namespace Docket

/-- What a machine can hold: widths fit a word and lengths an integer with sign,
and maps are in key order. -/
structure Representable (s : Schema) (value : Datum) : Prop where
  narrow : s.Narrow
  countableSchema : s.Countable
  countable : value.Countable
  ordered : value.Ordered

/-- Lengths fit an integer with sign and maps are in key order, however wide the
schema may be. -/
structure Sized (s : Schema) (value : Datum) : Prop where
  countableSchema : s.Countable
  countable : value.Countable
  ordered : value.Ordered

theorem Representable.sized {s : Schema} {value : Datum} (h : Representable s value) : Sized s value :=
  ⟨h.countableSchema, h.countable, h.ordered⟩

namespace Sized

variable {s part : Schema} {value inner : Datum}

theorem child (h : Sized s value) (hs : part ∈ s.children) (hv : inner ∈ value.children) : Sized part inner :=
  ⟨h.countableSchema.child hs, h.countable.child hv, h.ordered.child hv⟩

/-- A branch of a union lays out the value of the union. -/
theorem branch (h : Sized s value) (hs : part ∈ s.children) : Sized part value :=
  ⟨h.countableSchema.child hs, h.countable, h.ordered⟩

theorem length_lt (h : Sized s value) {n : Nat} (hn : n ∈ value.lengths) : n < 2 ^ 63 :=
  h.countable value (.self value) n hn

theorem list_length_lt (h : Sized s value) {n : Nat} (hn : n ∈ s.lengths) : n < 2 ^ 63 :=
  h.countableSchema s (.self s) n hn

end Sized

/-- Widths did not wrap on the way to a blob: a word can count every width in the
schema, or at least the blob, which is no shorter than any width that went into it. -/
def Weighed (s : Schema) (bytes : List UInt8) : Prop :=
  s.Narrow ∨ bytes.length < 2 ^ 64

theorem Weighed.child {s part : Schema} {bytes inner : List UInt8} (h : Weighed s bytes) (hs : part ∈ s.children)
    (hl : inner.length ≤ bytes.length) : Weighed part inner :=
  h.imp (·.child hs) fun h => Nat.lt_of_le_of_lt hl h

namespace Blob

theorem getElem?_of_ordinal? {symbols : List String} {symbol : String} {ordinal : Nat}
    (h : Schema.ordinal? symbols symbol = some ordinal) : symbols[ordinal]? = some symbol := by
  obtain ⟨hl, hs, -⟩ := List.findIdx?_eq_some_iff_getElem.1 h
  rw [List.getElem?_eq_getElem hl, of_decide_eq_true hs]

/-- A value is as wide as its schema says at least. -/
theorem width_le_length {s : Schema} {value : Datum} {bytes : List UInt8}
    (h : encode s value = .ok bytes) : s.width.toNat ≤ bytes.length := by
  rw [Schema.toNat_width]
  exact Nat.le_trans (Nat.mod_le _ _) (span_le_length s h)

/-- A width that went into a blob did not wrap. -/
theorem Weighed.toNat_width {s : Schema} {value : Datum} {bytes : List UInt8} (hw : Weighed s bytes)
    (h : encode s value = .ok bytes) : s.width.toNat = s.span := by
  rcases hw with hn | hl
  · exact hn.toNat_width
  · rw [Schema.toNat_width_of_lt (Nat.lt_of_le_of_lt (span_le_length s h) hl)]

/-- What is written as one block is one. -/
theorem blocks_block {α : Type} {P : List UInt8 → α → Prop} {row : List (List UInt8 × α)} (hl : row.length < 2 ^ 63)
    (hp : ∀ part ∈ row, P part.1 part.2) : Blocks P (block (row.map Prod.fst)) (oneRow row) := by
  cases row with
  | nil => exact .last (Varint.yields_readCount (by decide))
  | cons part row =>
      have hlast : Blocks P (Varint.encodeNat 0) [] := .last (Varint.yields_readCount (by decide))
      have hcount : Yields Varint.readCount (Varint.encodeNat (part :: row).length) (part :: row).length :=
        Varint.yields_readCount hl
      have h := Blocks.block hcount (List.cons_ne_nil _ _) hp hlast
      rw [← List.append_assoc] at h
      rw [block, List.length_map]
      exact h

theorem length_le_block {bodies : List (List UInt8)} {body : List UInt8} (h : body ∈ bodies) :
    body.length ≤ (block bodies).length := by
  have hne : bodies.isEmpty = false := by
    cases bodies with
    | nil => cases h
    | cons _ _ => rfl
  have hf := (List.sublist_flatten_of_mem h).length_le
  rw [block, hne, if_neg Bool.false_ne_true, List.length_append, List.length_append]
  omega

/-- Whether an array is held to the limit for items without width is told by their
span: only an array with items asks. -/
theorem limit_iff {items : Schema} {row : List (List UInt8 × Datum)} {limit : Nat}
    (h : ∀ part ∈ row, encode items part.2 = .ok part.1) (hw : ∀ part ∈ row, Weighed items part.1) :
    (items.width = 0 → row.length ≤ limit) ↔ (items.span = 0 → row.length ≤ limit) := by
  cases row with
  | nil => simp
  | cons part row =>
      have hz := Weighed.toNat_width (hw part List.mem_cons_self) (h part List.mem_cons_self)
      rw [← hz, ← UInt64.toNat_inj, UInt64.toNat_zero]

/-- An entry is never without width. -/
theorem entryWidth_ne_zero {values : Schema} {key : String} {value : Datum} {body : List UInt8}
    (h : encode values value = .ok body) (hw : Weighed (.map values) (encodeText key ++ body)) :
    values.entryWidth ≠ 0 := by
  rcases hw with hn | hl
  · exact hn.entryWidth_ne_zero
  · intro hz
    have hk := length_counted_pos (Text.Utf8.encode key)
    have hs := span_le_length values h
    rw [encodeText, List.length_append] at hl
    have hspan : values.span % 2 ^ 64 = values.span := Nat.mod_eq_of_lt (by omega)
    have ht : values.entryWidth.toNat = (1 + values.span) % 2 ^ 64 := by
      rw [Schema.entryWidth, UInt64.toNat_add, Schema.toNat_width, hspan]
      rfl
    rw [hz, UInt64.toNat_zero] at ht
    omega

/-- A value without parts is read from its bytes. -/
theorem yields_scalar (guard : Guard) {s : Schema} (hs : (s.kind.isStructured || s.kind == .union) = false)
    {value : Datum} {bytes : List UInt8} (hr : Sized s value) (he : encode s value = .ok bytes) (old : Datum) :
    Yields (readDatum guard s old) bytes value := by
  cases s with
  | null =>
      cases value <;> simp only [encode, reduceCtorEq, Except.ok.injEq] at he
      rw [← he]
      exact yields_pure Datum.null
  | boolean =>
      cases value <;> simp only [encode, reduceCtorEq, Except.ok.injEq] at he
      rename_i b
      rw [← he]
      cases b
      · exact (yields_byte 0).bind (yields_pure (Datum.boolean false))
      · exact (yields_byte 1).bind (yields_pure (Datum.boolean true))
  | int =>
      cases value <;> simp only [encode, reduceCtorEq, Except.ok.injEq] at he
      rw [← he]
      exact (Varint.yields_readInt _).map Datum.int
  | long =>
      cases value <;> simp only [encode, reduceCtorEq, Except.ok.injEq] at he
      rw [← he]
      exact (Varint.yields_read _).map Datum.long
  | float =>
      cases value <;> simp only [encode, reduceCtorEq, Except.ok.injEq] at he
      rename_i bits
      rw [← he]
      have h := yields_word 4 bits.toNat bits.toNat_lt fun n => Datum.float n.toUInt32
      have hb : bits.toNat.toUInt32 = bits := UInt32.ofNat_toNat
      rw [hb] at h
      exact h
  | double =>
      cases value <;> simp only [encode, reduceCtorEq, Except.ok.injEq] at he
      rename_i bits
      rw [← he]
      have h := yields_word 8 bits.toNat bits.toNat_lt fun n => Datum.double n.toUInt64
      have hb : bits.toNat.toUInt64 = bits := UInt64.ofNat_toNat
      rw [hb] at h
      exact h
  | string =>
      cases value <;> simp only [encode, reduceCtorEq, Except.ok.injEq] at he
      rw [← he]
      exact (yields_readText (hr.length_lt (List.mem_singleton_self _))).map Datum.string
  | bytes =>
      cases value <;> simp only [encode, reduceCtorEq, Except.ok.injEq] at he
      rw [← he]
      exact (yields_readBytes (hr.length_lt (List.mem_singleton_self _))).map Datum.bytes
  | enum name symbols =>
      obtain ⟨symbol, ordinal, rfl, ho, rfl⟩ := encode_enum_eq_ok he
      have hs : symbols[ordinal]? = some symbol := getElem?_of_ordinal? ho
      have hl : ordinal < 2 ^ 63 := Nat.lt_trans (List.getElem?_eq_some_iff.1 hs).1
        (hr.list_length_lt (List.mem_singleton_self _))
      refine (Varint.yields_readNat hl).bind_nil ?_
      rw [hs]
      exact yields_pure _
  | fixed name size =>
      obtain ⟨rfl, hl⟩ := encode_fixed_eq_ok he
      have h := (yields_slice bytes).map Datum.fixed
      rw [hl] at h
      exact h
  | array items => cases hs
  | map values => cases hs
  | record name fields => cases hs
  | union branches => cases hs

/-- An array is settled by its length and its items, if each of these is. -/
theorem settles_array (guard : Guard) {items : Schema} {row : List (List UInt8 × Datum)} (hl : row.length < 2 ^ 63)
    (hp : ∀ part ∈ row, encode items part.2 = .ok part.1) (hw : ∀ part ∈ row, Weighed items part.1)
    (hi : ∀ part ∈ row, ∀ old, Settles (readDatum guard items old) part.1 part.2 (Roomy items part.2)) (old : Datum) :
    Settles (readDatum guard (.array items) old) (block (row.map Prod.fst)) (.array (row.map Prod.snd))
      (Roomy (.array items) (.array (row.map Prod.snd))) := by
  have hb := blocks_block (P := fun part value => encode items value = .ok part ∧
    ∀ old, Settles (readDatum guard items old) part value (Roomy items value)) hl fun part hm => ⟨hp part hm, hi part hm⟩
  have h := settles_blocks_array (fun h => h.2) (fun h => width_le_length h.1) hb old
  rw [flatten_oneRow] at h
  refine h.congr ?_
  rw [roomy_array, List.length_map, limit_iff hp hw, List.forall_mem_map]

/-- A map is settled by its values, since its entries are never without width. -/
theorem settles_map (guard : Guard) {values : Schema} {row : List (List UInt8 × String × Datum)}
    (hl : row.length < 2 ^ 63) (ho : Entries.Ascending (row.map Prod.snd))
    (hp : ∀ part ∈ row, part.2.1.utf8ByteSize < 2 ^ 63 ∧ Weighed (.map values) part.1 ∧
      ∃ body, encode values part.2.2 = .ok body ∧ encodeText part.2.1 ++ body = part.1 ∧
        ∀ old, Settles (readDatum guard values old) body part.2.2 (Roomy values part.2.2)) (old : Datum) :
    Settles (readDatum guard (.map values) old) (block (row.map Prod.fst)) (.map (row.map Prod.snd))
      (Roomy (.map values) (.map (row.map Prod.snd))) := by
  have hb := blocks_block (P := Entry fun body value => encode values value = .ok body ∧
    ∀ old, Settles (readDatum guard values old) body value (Roomy values value)) hl fun part hm => by
      obtain ⟨hk, -, body, hb, he, hv⟩ := hp part hm
      exact ⟨encodeText part.2.1, body, he.symm, yields_readText hk, hb, hv⟩
  have h := settles_blocks_map (fun h => h.2) (fun h => width_le_length h.1) hb old
  have hallowed : Allowed values.entryWidth Pairs.count Pairs.putEntry (.reusing old) (oneRow row) := by
    cases row with
    | nil => exact trivial
    | cons part row =>
        obtain ⟨-, hw, body, hb, he, -⟩ := hp part List.mem_cons_self
        exact allowed_of_ne_zero (entryWidth_ne_zero hb (he ▸ hw)) _ _ _ _
  rw [flatten_oneRow, Entries.ofList_of_ascending ho] at h
  refine h.congr ?_
  rw [roomy_map, List.forall_mem_map]
  exact and_iff_right hallowed

mutual

/-- The one induction behind the round trip, along the schema: reading the blob of
a value settles it by its room, over any old value. -/
theorem settles_sized (guard : Guard) : (s : Schema) → ∀ {value bytes}, Sized s value → Weighed s bytes →
    encode s value = .ok bytes → ∀ old, Settles (readDatum guard s old) bytes value (Roomy s value)
  | .null, _, _, hr, _, he, old | .boolean, _, _, hr, _, he, old | .int, _, _, hr, _, he, old
  | .long, _, _, hr, _, he, old | .float, _, _, hr, _, he, old | .double, _, _, hr, _, he, old
  | .string, _, _, hr, _, he, old | .bytes, _, _, hr, _, he, old | .enum _ _, _, _, hr, _, he, old
  | .fixed _ _, _, _, hr, _, he, old => (yields_scalar guard rfl hr he old).settles (roomy_scalar rfl)
  | .array items, value, bytes, hr, hw, he, old => by
      obtain ⟨listed, parts, rfl, rfl, hp⟩ := encode_array_eq_ok he
      obtain ⟨row, rfl, rfl, hrow⟩ := exists_row hp
      have hl := hr.length_lt (List.mem_singleton_self _)
      rw [List.length_map] at hl
      have hwp : ∀ part ∈ row, Weighed items part.1 := fun part hm =>
        hw.child (List.mem_singleton_self _) (length_le_block (List.mem_map_of_mem hm))
      have hv : ∀ part ∈ row, Sized items part.2 := fun part hm =>
        hr.child (List.mem_singleton_self _) (List.mem_map_of_mem hm)
      exact settles_array guard hl hrow hwp
        (fun part hm => settles_sized guard items (hv part hm) (hwp part hm) (hrow part hm)) old
  | .map values, value, bytes, hr, hw, he, old => by
      obtain ⟨entries, parts, rfl, rfl, hp⟩ := encode_map_eq_ok he
      obtain ⟨row, rfl, rfl, hrow⟩ := exists_row hp
      have hl := hr.length_lt List.mem_cons_self
      rw [List.length_map] at hl
      refine settles_map guard hl (hr.ordered _ (.self _)) (fun part hm => ?_) old
      obtain ⟨body, hb, hbody⟩ := hrow part hm
      have hentry : part.2 ∈ row.map Prod.snd := List.mem_map_of_mem hm
      have hk : part.2.1.utf8ByteSize < 2 ^ 63 := hr.length_lt (List.mem_cons_of_mem _ (List.mem_map_of_mem hentry))
      have hv : Sized values part.2.2 := hr.child (List.mem_singleton_self _) (List.mem_map_of_mem hentry)
      have hpart : Weighed (.map values) part.1 :=
        hw.imp id fun h => Nat.lt_of_le_of_lt (length_le_block (List.mem_map_of_mem hm)) h
      have hle : body.length ≤ part.1.length := by
        rw [← hbody, List.length_append]
        omega
      exact ⟨hk, hpart, body, hb, hbody,
        settles_sized guard values hv (hpart.child (List.mem_singleton_self _) hle) hb⟩
  | .record name fields, value, bytes, hr, hw, he, old => by
      obtain ⟨listed, rfl, hl, hf⟩ := encode_record_eq_ok he
      have hp : ∀ pair ∈ fields.zip listed, Sized pair.1.schema pair.2 := fun pair hm =>
        hr.child (List.mem_map_of_mem (List.of_mem_zip hm).1) (List.of_mem_zip hm).2
      have hwf : ∀ field ∈ fields, Weighed field.schema bytes := fun field hm =>
        hw.child (List.mem_map_of_mem hm) (Nat.le_refl _)
      exact ((settles_fields guard fields hl hp hwf hf _).map Datum.record).congr roomy_record.symm
  | .union branches, value, bytes, hr, hw, he, old => by
      rw [encode] at he
      -- the branch that was written is the first that takes the value, the one `Roomy` asks
      obtain ⟨place, branch, body, hf, hp, hb, rfl⟩ := encodeBranch_eq_ok he
      have hl : place < 2 ^ 63 := Nat.lt_trans (List.getElem?_eq_some_iff.1 hp).1
        (hr.list_length_lt (List.mem_singleton_self _))
      have hm := hr.branch (List.mem_of_getElem? hp)
      have hbody : body.length ≤ (Varint.encodeNat (0 + place) ++ body).length := by
        rw [List.length_append]
        omega
      have hwb := hw.child (List.mem_of_getElem? hp) hbody
      rw [Nat.zero_add]
      exact ((Varint.yields_readNat hl).bind_settles
        (settles_branch guard branches.length place branches hp hm hwb hb old)).congr (roomy_union hf).symm

theorem settles_fields (guard : Guard) : (fields : List Field) → ∀ {listed bytes},
    listed.length = fields.length → (∀ pair ∈ fields.zip listed, Sized pair.1.schema pair.2) →
    (∀ field ∈ fields, Weighed field.schema bytes) →
    encodeFields fields listed = .ok bytes → ∀ old, Settles (readFields guard fields old) bytes listed
      (∀ pair ∈ fields.zip listed, Roomy pair.1.schema pair.2)
  | [], listed, bytes, hl, hr, hw, he, old => by
      rw [List.eq_nil_of_length_eq_zero hl] at he ⊢
      rw [← Except.ok.inj he]
      exact (yields_pure []).settles fun pair hp => absurd hp List.not_mem_nil
  | ⟨name, schema, default⟩ :: fields, listed, bytes, hl, hr, hw, he, old => by
      cases listed with
      | nil => cases hl
      | cons value listed =>
          obtain ⟨first, others, hf, ho, rfl⟩ := encodeFields_cons_eq_ok he
          rw [List.zip_cons_cons] at hr ⊢
          obtain ⟨hv, hr⟩ := List.forall_mem_cons.1 hr
          obtain ⟨hwv, hw⟩ := List.forall_mem_cons.1 hw
          have hfirst : Weighed schema first := hwv.imp id fun h => by
            rw [List.length_append] at h
            omega
          have hothers : ∀ field ∈ fields, Weighed field.schema others := fun field hm =>
            (hw field hm).imp id fun h => by
              rw [List.length_append] at h
              omega
          exact ((settles_sized guard schema hv hfirst hf _).bind fun _ =>
            (settles_fields guard fields (Nat.succ.inj hl) hr hothers ho _).map (value :: ·)).congr
              (List.forall_mem_cons (p := fun pair : Field × Datum => Roomy pair.1.schema pair.2)
                (a := (⟨name, schema, default⟩, value))).symm

theorem settles_branch (guard : Guard) (count index : Nat) : (branches : List Schema) →
    ∀ {place branch value bytes}, branches[place]? = some branch → Sized branch value → Weighed branch bytes →
    encode branch value = .ok bytes → ∀ old,
      Settles (readBranch guard count index branches place old) bytes value (Roomy branch value)
  | [], place, branch, value, bytes, hp, hr, hw, he, old => by cases hp
  | first :: rest, 0, branch, value, bytes, hp, hr, hw, he, old => by
      cases hp
      exact settles_sized guard first hr hw he _
  | first :: rest, place + 1, branch, value, bytes, hp, hr, hw, he, old =>
      settles_branch guard count index rest hp hr hw he old

end

/-- A blob of a schema whose widths a word can count settles its value. -/
theorem settles_encode (guard : Guard) (s : Schema) {value : Datum} {bytes : List UInt8} (hr : Representable s value)
    (he : encode s value = .ok bytes) (old : Datum) :
    Settles (readDatum guard s old) bytes value (Roomy s value) :=
  settles_sized guard s hr.sized (.inl hr.narrow) he old

/-- A blob on its own: whoever settles its bytes has settled the blob. -/
theorem decode_of_settles {s : Schema} {old value : Datum} {bytes : List UInt8} {p : Prop}
    (h : Settles (readDatum .everyBlock s old) bytes value p) :
    (p → decode s bytes old = .ok value) ∧ (¬p → ∃ fault, decode s bytes old = .error (.malformed fault)) := by
  constructor
  · intro hp
    have hd := h.yields hp 0 []
    rw [List.append_nil] at hd
    rw [decode, decodeWith, Cursor.start, hd]
    rfl
  · intro hp
    obtain ⟨fault, hd⟩ := h.refuses hp 0 []
    rw [List.append_nil] at hd
    refine ⟨fault, ?_⟩
    rw [decode, decodeWith, Cursor.start, hd]
    rfl

theorem decode_encode_iff {s : Schema} {value : Datum} {bytes : List UInt8} (hr : Representable s value)
    (he : encode s value = .ok bytes) (old : Datum) :
    (decode s bytes old = .ok value ↔ Roomy s value) ∧
      (¬Roomy s value → ∃ fault, decode s bytes old = .error (.malformed fault)) ∧
      (Roomy s value → ∀ suffix, readDatum .everyBlock s old (.start (bytes ++ suffix)) =
        .ok (value, ⟨bytes.length, suffix⟩)) := by
  have h := settles_encode .everyBlock s hr he old
  have hok : Roomy s value → decode s bytes old = .ok value := by
    intro hp
    have hd := h.yields hp 0 []
    rw [List.append_nil] at hd
    rw [decode, decodeWith, Cursor.start, hd]
    rfl
  have herr : ¬Roomy s value → ∃ fault, decode s bytes old = .error (.malformed fault) := by
    intro hp
    obtain ⟨fault, hd⟩ := h.refuses hp 0 []
    rw [List.append_nil] at hd
    refine ⟨fault, ?_⟩
    rw [decode, decodeWith, Cursor.start, hd]
    rfl
  refine ⟨⟨fun hd => ?_, hok⟩, herr, fun hp suffix => ?_⟩
  · by_contra hp
    obtain ⟨fault, hf⟩ := herr hp
    rw [hd] at hf
    cases hf
  · rw [Cursor.start, h.yields hp 0 suffix, Nat.zero_add]

/-- A record of a union of two enumerations, an array of items without width and a
map of arrays. -/
def mixedSchema : Schema :=
  .record "Mixed" [⟨"tag", .union [.enum "Old" ["x"], .enum "New" ["a", "b"]], none⟩,
    ⟨"marks", .array (.record "Unit" []), none⟩, ⟨"counts", .map (.array .long), none⟩]

def mixedValue : Datum :=
  .record [.enum "b", .array [.record [], .record []],
    .map [("a", .array []), ("é", .array [.long Int64.minValue, .long (-1)])]]

def mixedBytes : List UInt8 :=
  [2, 2, 4, 0, 4, 2, 97, 0, 4, 195, 169, 4, 255, 255, 255, 255, 255, 255, 255, 255, 255, 1, 1, 0, 0]

theorem representable_mixed : Representable mixedSchema mixedValue :=
  ⟨by decide, by decide, by decide, by decide⟩

theorem roomy_mixed : Roomy mixedSchema mixedValue := by
  have hf : [Schema.enum "Old" ["x"], .enum "New" ["a", "b"]].find? (takes · (.enum "b")) =
      some (.enum "New" ["a", "b"]) := by rfl
  have hb : Roomy (.enum "New" ["a", "b"]) (.enum "b") := roomy_scalar rfl
  have hl : ∀ n, Roomy .long (.long n) := fun n => roomy_scalar rfl
  simp [mixedSchema, mixedValue, roomy_record, roomy_union hf, hb, roomy_array, roomy_map, hl, zeroWidthLimit]

theorem decode_encode_mixed : Roomy mixedSchema mixedValue ∧ encode mixedSchema mixedValue = .ok mixedBytes ∧
    decode mixedSchema mixedBytes .null = .ok mixedValue ∧
    readDatum .everyBlock mixedSchema .null (.start (mixedBytes ++ [7, 7])) = .ok (mixedValue, ⟨25, [7, 7]⟩) := by
  have he : encode mixedSchema mixedValue = .ok mixedBytes := by with_unfolding_all rfl
  have hp : Roomy mixedSchema mixedValue := roomy_mixed
  have h := decode_encode_iff representable_mixed he .null
  exact ⟨hp, he, h.1.2 hp, h.2.2 hp [7, 7]⟩

end Blob

end Docket
