import Docket.Proofs.Blob.Forms
import Docket.Schema.Admits

/-!
# What is read is a value of its schema

Whatever the bytes are and whatever value is overwritten, a reader that succeeds
gives a value that its schema admits at every depth. What is left over of the old
value belongs to another schema as a rule, and never shows. The entries of a map
end up in key order however often and in whatever order their keys come.
-/
namespace Docket.Blob

variable {α β : Type} {r : Read α} {f : α → Read β} {P : α → Prop} {Q : β → Prop}

/-- Whatever the reader gives has the property. -/
def Gives (r : Read α) (P : α → Prop) : Prop :=
  ∀ ⦃c c' : Cursor⦄ ⦃x : α⦄, r c = .ok (x, c') → P x

theorem gives_any (r : Read α) : Gives r fun _ => True :=
  fun _ _ _ _ => trivial

theorem gives_pure {x : α} (h : P x) : Gives (pure x) P := by
  intro c c' y hy
  cases hy
  exact h

theorem gives_fail (fault : Fault) : Gives (Read.fail fault) P := by
  intro c c' x h
  cases h

theorem Gives.bind (hr : Gives r P) (hf : ∀ x, P x → Gives (f x) Q) : Gives (r >>= f) Q := by
  intro c c' y h
  obtain ⟨x, between, hx, hy⟩ := ok_of_bind h
  exact hf x (hr hx) hy

theorem Gives.map (hr : Gives r P) {g : α → β} (hg : ∀ x, P x → Q (g x)) : Gives (do return g (← r)) Q :=
  hr.bind fun x hx => gives_pure (hg x hx)

theorem gives_slice (count : Nat) : Gives (slice count) fun bytes => bytes.length = count := by
  intro c c' bytes h
  simp only [slice, shorter_eq] at h
  split at h
  · cases h
  · rename_i hl
    cases h
    have hle : count ≤ c.rest.length := by simpa using hl
    exact List.length_take_of_le hle

/-! ### Values of a schema -/

/-- A value of the schema, its maps in key order. -/
structure Belongs (s : Schema) (value : Datum) : Prop where
  admits : s.Admits value
  ordered : value.Ordered

theorem Belongs.of_admits {s : Schema} {value : Datum} (h : s.Admits value)
    (hk : value.kind.isStructured = false) : Belongs s value :=
  ⟨h, Datum.ordered_scalar hk⟩

theorem belongs_array {items : Schema} {listed : List Datum} (h : ∀ value ∈ listed, Belongs items value) :
    Belongs (.array items) (.array listed) where
  admits := .array fun value hv => (h value hv).admits
  ordered := Datum.ordered_array.2 fun value hv => (h value hv).ordered

theorem belongs_map {values : Schema} {entries : List (String × Datum)} (ha : Entries.Ascending entries)
    (h : ∀ entry ∈ entries, Belongs values entry.2) : Belongs (.map values) (.map entries) where
  admits := .map fun entry he => (h entry he).admits
  ordered := Datum.ordered_map.2 ⟨ha, fun entry he => (h entry he).ordered⟩

theorem belongs_record {name : String} {fields : List Field} {listed : List Datum}
    (h : List.Forall₂ (fun field value => Belongs field.schema value) fields listed) :
    Belongs (.record name fields) (.record listed) where
  admits := .record h.length_eq.symm fun pair hp => ((List.forall₂_iff_zip.1 h).2 hp).admits
  ordered := by
    rw [Datum.ordered_record]
    induction h with
    | nil => exact fun _ hm => absurd hm List.not_mem_nil
    | cons hv _ ih => exact List.forall_mem_cons.2 ⟨hv.ordered, ih⟩

theorem gives_scalar (guard : Guard) {s : Schema} (hs : (s.kind.isStructured || s.kind == .union) = false) (old : Datum) :
    Gives (readDatum guard s old) (Belongs s) := by
  cases s with
  | null => exact gives_pure (.of_admits .null rfl)
  | boolean =>
      refine (gives_any byte).bind fun b _ => ?_
      split
      · exact gives_pure (.of_admits (.boolean false) rfl)
      · split
        · exact gives_pure (.of_admits (.boolean true) rfl)
        · exact gives_fail _
  | int => exact (gives_any Varint.readInt).map fun value _ => .of_admits (.int value) rfl
  | long => exact (gives_any Varint.read).map fun value _ => .of_admits (.long value) rfl
  | float => exact (gives_any (slice 4)).map fun bytes _ => .of_admits (.float _) rfl
  | double => exact (gives_any (slice 8)).map fun bytes _ => .of_admits (.double _) rfl
  | string => exact (gives_any readText).map fun value _ => .of_admits (.string value) rfl
  | bytes => exact (gives_any readBytes).map fun value _ => .of_admits (.bytes value) rfl
  | enum name symbols =>
      refine (gives_any Varint.readNat).bind fun ordinal _ => ?_
      split
      · rename_i symbol hm
        exact gives_pure (.of_admits (.enum (List.mem_of_getElem? hm)) rfl)
      · exact gives_fail _
  | fixed name size => exact (gives_slice size.toNat).map fun value hl => .of_admits (.fixed hl) rfl
  | array | map | record | union => cases hs

/-! ### Every schema -/

/-- A value belongs to the schema as its parts do to the schemas that read them. -/
theorem belongs_of_decoded {s : Schema} {bytes : List UInt8} {value : Datum} (h : Decoded s bytes value) :
    Belongs s value := by
  induction s using Schema.children_induction generalizing bytes value with
  | step s ih =>
    cases s with
    | array items =>
        obtain ⟨rows, hb, -, rfl⟩ := decode_array_eq_ok_iff.1 h
        refine belongs_array fun value hv => ?_
        obtain ⟨item, hm, rfl⟩ := List.mem_map.1 hv
        exact ih items (List.mem_singleton_self _) (hb.part item hm)
    | map values =>
        obtain ⟨rows, hb, -, rfl⟩ := decode_map_eq_ok_iff.1 h
        refine belongs_map (Entries.ascending_ofList _) fun entry he => ?_
        obtain ⟨part, hm, rfl⟩ := List.mem_map.1 (Entries.mem_of_mem_ofList he)
        obtain ⟨name, body, -, -, hv⟩ := hb.part part hm
        exact ih values (List.mem_singleton_self _) hv
    | record name fields =>
        obtain ⟨row, hf, -, rfl⟩ := decode_record_eq_ok_iff.1 h
        refine belongs_record (List.forall₂_map_right_iff.2 (List.forall₂_iff_zip.2 ⟨hf.length_eq, fun hm => ?_⟩))
        exact ih _ (List.mem_map_of_mem (List.of_mem_zip hm).1) ((List.forall₂_iff_zip.1 hf).2 hm)
    | union branches =>
        obtain ⟨head, body, index, branch, -, -, hp, hb⟩ := decode_union_eq_ok_iff.1 h
        have hm : branch ∈ branches := List.mem_of_getElem? hp
        have belongs : Belongs branch value := ih branch hm hb
        exact ⟨.union hm belongs.admits, belongs.ordered⟩
    | _ =>
        obtain ⟨offset, hr⟩ := decode_eq_ok_iff.1 h
        exact gives_scalar .everyBlock rfl .null hr

theorem gives_readDatum (guard : Guard) (s : Schema) (old : Datum) : Gives (readDatum guard s old) (Belongs s) := by
  intro c c' value h
  obtain ⟨taken, -, hb⟩ := takes_readDatum guard .everyBlock s old h
  exact belongs_of_decoded (decode_eq_ok_iff_blobs.2 hb)

/-- Any bytes that can be decoded at all, over any old value, give a value of the
schema, with its maps in key order. -/
theorem decode_admits {s : Schema} {bytes : List UInt8} {old value : Datum} (h : decode s bytes old = .ok value) :
    s.Admits value ∧ value.Ordered := by
  obtain ⟨offset, hr⟩ := decode_eq_ok_iff.1 h
  have belongs : Belongs s value := gives_readDatum .everyBlock s old hr
  exact ⟨belongs.admits, belongs.ordered⟩

/-- A record of a map, whose values are integers or lists of suits, and a key. -/
def handSchema : Schema :=
  .record "hand" [⟨"held", .map (.union [.int, .array (.enum "suit" ["clubs", "spades"])]), none⟩,
    ⟨"key", .fixed "key" 2, none⟩]

/-- The map comes in two blocks, with the key b before a and then once more. -/
def handBytes : List UInt8 :=
  [4, 2, 98, 0, 14, 2, 97, 2, 4, 2, 0, 0, 2, 2, 98, 0, 5, 0, 7, 8]

/-- The old value is a record of as many fields, none of them of its field's schema. -/
theorem decode_admits_hand :
    decode handSchema handBytes (.record [.map [("a", .string "old")], .array [.null]]) =
        .ok (.record [.map [("a", .array [.enum "spades", .enum "clubs"]), ("b", .int (-3))], .fixed [7, 8]]) ∧
      handSchema.Admits
        (.record [.map [("a", .array [.enum "spades", .enum "clubs"]), ("b", .int (-3))], .fixed [7, 8]]) := by
  have h : decode handSchema handBytes (.record [.map [("a", .string "old")], .array [.null]]) =
      .ok (.record [.map [("a", .array [.enum "spades", .enum "clubs"]), ("b", .int (-3))], .fixed [7, 8]]) :=
    rfl
  exact ⟨h, (decode_admits h).1⟩

end Docket.Blob
