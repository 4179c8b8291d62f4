import Docket.Proofs.Blob.Shortest

/-!
# Where the width is the least length

No blob is shorter than the span of its schema. One that is as short exists unless a
union stands in the way: a union counts as one byte, for the place of a branch, and
takes more if no branch with a short place has values without bytes. The width that
reading goes by is the length of the shortest blob exactly where the span is, and a
word holds it.
-/
namespace Docket

namespace Schema

mutual

/-- Some value takes up no more bytes than the span. The place of a branch is one byte
long for the first 64 branches. -/
def Snug : Schema → Prop
  | record _ fields => FieldsSnug fields
  | union branches => ∃ branch ∈ branches.take 64, branch.span = 0
  | _ => True

def FieldsSnug : List Field → Prop
  | [] => True
  | ⟨_, schema, _⟩ :: rest => schema.Snug ∧ FieldsSnug rest

end

mutual

/-- Where there is nothing to be written, there is no union. -/
theorem snug_of_span_eq_zero : (s : Schema) → s.span = 0 → s.Snug
  | .record _ fields, h => fieldsSnug_of_span_eq_zero fields h
  | .union _, h => absurd h Nat.one_ne_zero
  | .null, _ | .boolean, _ | .int, _ | .long, _ | .float, _ | .double, _ | .string, _ | .bytes, _ => trivial
  | .enum _ _, _ | .fixed _ _, _ | .array _, _ | .map _, _ => trivial

theorem fieldsSnug_of_span_eq_zero : (fields : List Field) → fieldsSpan fields = 0 → FieldsSnug fields
  | [], _ => trivial
  | ⟨_, schema, _⟩ :: rest, h => by
      rw [fieldsSpan, Nat.add_eq_zero_iff] at h
      exact ⟨snug_of_span_eq_zero schema h.1, fieldsSnug_of_span_eq_zero rest h.2⟩

end

end Schema

namespace Blob

variable {α : Type} {s : Schema} {bytes head : List UInt8} {value : Datum}

/-! ### Places of one byte -/

theorem Varint.length_encodeNat_short {n : Nat} (hn : n < 64) : (encodeNat n).length = 1 := by
  rw [encodeNat, encode, toInt_ofNat (by omega), fold, groups, if_pos (by omega)]
  rfl

theorem Varint.lt_of_yields_readNat {n : Nat} (h : Yields readNat head n) (hl : head.length = 1) : n < 64 := by
  have hlow := spelled_of_yields h
  have hlt := spelled_lt head
  rw [hl, Nat.pow_one] at hlt
  omega

/-! ### Blobs as short as the span -/

/-- The number is the length of the shortest bytes that have the property with something. -/
structure Least (P : List UInt8 → α → Prop) (n : Nat) : Prop where
  exact : ∃ bytes value, P bytes value ∧ bytes.length = n
  below : ∀ bytes value, P bytes value → n ≤ bytes.length

theorem fieldsShortest_le_fieldsSpan {fields : List Field} (hs : Schema.FieldsSnug fields)
    (h : ∀ field ∈ fields, field.schema.Snug → field.schema.shortest ≤ field.schema.span) :
    Schema.fieldsShortest fields ≤ Schema.fieldsSpan fields := by
  induction fields with
  | nil => exact Nat.le_refl 0
  | cons field fields ih =>
      obtain ⟨name, schema, default⟩ := field
      obtain ⟨hfield, hrest⟩ := List.forall_mem_cons.1 h
      exact Nat.add_le_add (hfield hs.1) (ih hs.2 hrest)

theorem shortest_le_span (hs : s.Snug) : s.shortest ≤ s.span := by
  induction s using Schema.children_induction with
  | step s ih =>
    cases s with
    | record name fields =>
        exact fieldsShortest_le_fieldsSpan hs fun field hf => ih field.schema (List.mem_map_of_mem hf)
    | union branches =>
        obtain ⟨branch, hm, hz⟩ := hs
        obtain ⟨index, hlt, rfl⟩ := List.mem_take_iff_getElem.1 hm
        rw [Nat.lt_min] at hlt
        have hnone := ih _ (List.getElem_mem hlt.2) (Schema.snug_of_span_eq_zero _ hz)
        have hleast := Schema.shortest_union_le (List.getElem?_eq_getElem hlt.2)
        rw [Schema.behind, Varint.length_encodeNat_short hlt.1] at hleast
        rw [hz] at hnone
        exact Nat.le_trans hleast (Nat.add_le_add_left hnone 1)
    | _ => exact Nat.le_refl _

theorem fieldsSnug_of_decoded {fields : List Field} {row : List (List UInt8 × Datum)} (h : Fields Decoded fields row)
    (hf : ∀ field ∈ fields, ∀ {bytes value}, Decoded field.schema bytes value → bytes.length = field.schema.span →
      field.schema.Snug) (hl : (joined row).length = Schema.fieldsSpan fields) : Schema.FieldsSnug fields := by
  induction h with
  | nil => exact trivial
  | @cons field part fields row hd hrow ih =>
      obtain ⟨name, schema, default⟩ := field
      obtain ⟨hfield, hrest⟩ := List.forall_mem_cons.1 hf
      have hpart : schema.span ≤ part.1.length := span_le_of_decode hd
      have hothers : Schema.fieldsSpan fields ≤ (joined row).length :=
        fieldsSpan_le_joined (hrow.imp fun _ _ h => decode_eq_ok_iff_blobs.1 h)
      rw [joined_cons, List.length_append, Schema.fieldsSpan] at hl
      have hfirst : part.1.length = schema.span := by omega
      exact ⟨hfield hd hfirst, ih hrest (by omega)⟩

/-- Only of a snug schema a blob is as short as the span. -/
theorem snug_of_decoded (hd : Decoded s bytes value) (hl : bytes.length = s.span) : s.Snug := by
  induction s using Schema.children_induction generalizing bytes value with
  | step s ih =>
    cases s with
    | record name fields =>
        obtain ⟨row, hrow, rfl, -⟩ := decode_record_eq_ok_iff.1 hd
        exact fieldsSnug_of_decoded hrow (fun field hf _ _ => ih field.schema (List.mem_map_of_mem hf)) hl
    | union branches =>
        obtain ⟨head, body, index, branch, rfl, hh, hb, hbody⟩ := decode_union_eq_ok_iff.1 hd
        have hhead := (Varint.takes_readNat.of_yields hh).length_le
        have hspan := span_le_of_decode hbody
        have hone : head.length + body.length = 1 := by
          rw [← List.length_append]
          exact hl
        have hindex : index < 64 := Varint.lt_of_yields_readNat hh (by omega)
        refine ⟨branch, List.mem_of_getElem? (i := index) ?_, by omega⟩
        rw [List.getElem?_take_of_lt hindex, hb]
    | _ => exact trivial

/-! ### Widths -/

/-- A word that keeps what it can of a lower bound is the least length exactly if it
keeps all of it and some bytes are that short. -/
theorem least_mod_iff {P : List UInt8 → α → Prop} {n : Nat} {p : Prop}
    (hbelow : ∀ bytes value, P bytes value → n ≤ bytes.length)
    (hexact : (∃ bytes value, P bytes value ∧ bytes.length = n) ↔ p) :
    Least P (n % 2 ^ 64) ↔ n < 2 ^ 64 ∧ p := by
  rw [← hexact]
  constructor
  · rintro ⟨⟨bytes, value, hp, hl⟩, -⟩
    have hn := hbelow bytes value hp
    have hlt : n < 2 ^ 64 := by omega
    rw [Nat.mod_eq_of_lt hlt] at hl
    exact ⟨hlt, bytes, value, hp, hl⟩
  · rintro ⟨hlt, hex⟩
    rw [Nat.mod_eq_of_lt hlt]
    exact ⟨hex, hbelow⟩

/-- A snug schema that keeps its rules has a blob as short as its span. -/
theorem exists_decoded_span (hs : s.Sound) (hc : s.Countable) (hsnug : s.Snug) :
    ∃ bytes value, Decoded s bytes value ∧ bytes.length = s.span := by
  obtain ⟨bytes, value, hd, hl⟩ := attained hs hc
  have hle : bytes.length ≤ s.span := by
    rw [hl]
    exact shortest_le_span hsnug
  exact ⟨bytes, value, hd, Nat.le_antisymm hle (span_le_of_decode hd)⟩

theorem least_width_iff (hs : s.Sound) (hc : s.Countable) :
    Least (Decoded s) s.width.toNat ↔ s.span < 2 ^ 64 ∧ s.Snug := by
  rw [Schema.toNat_width]
  refine least_mod_iff (fun bytes value h => span_le_of_decode h) ⟨?_, exists_decoded_span hs hc⟩
  rintro ⟨bytes, value, hd, hl⟩
  exact snug_of_decoded hd hl

theorem least_entryWidth_iff (hs : s.Sound) (hc : s.Countable) :
    Least (Entry (Decoded s)) s.entryWidth.toNat ↔ 1 + s.span < 2 ^ 64 ∧ s.Snug := by
  rw [Schema.toNat_entryWidth]
  refine least_mod_iff (fun bytes value h => ?_) ⟨?_, fun hsnug => ?_⟩
  · exact span_lt_length_entry h
  · rintro ⟨bytes, entry, ⟨name, body, rfl, hk, hv⟩, hl⟩
    have hname := (takes_readText.of_yields hk).length_le
    have hspan := span_le_of_decode hv
    rw [List.length_append] at hl
    exact snug_of_decoded hv (by omega)
  · obtain ⟨body, value, hd, hl⟩ := exists_decoded_span hs hc hsnug
    have hname : Yields readText [0] "" := fun _ _ => rfl
    refine ⟨[0] ++ body, ("", value), ⟨[0], body, rfl, hname, hd⟩, ?_⟩
    rw [List.length_append, hl]
    rfl

end Blob

end Docket
