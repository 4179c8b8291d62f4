import Docket.Proofs.Blob.Scalar
import Docket.Proofs.Parts
import Docket.Proofs.Success

/-!
# Which part of a value is laid out by which part of a schema

Encoding walks through a schema and a value together; of a union it enters the
first branch that takes the value. `Layout` lists the pairs that it meets. Arrays
met with items that take up no bytes are those a reader limits, and a value is
roomy for a schema when none of them is too long. A value takes up at least the
span of its schema.
-/
namespace Docket.Blob

/-- Encoding the value by the schema lays the inner value out by the part. -/
inductive Layout : Schema → Datum → Schema → Datum → Prop where
  | self (s : Schema) (value : Datum) : Layout s value s value
  | item {items part : Schema} {listed : List Datum} {value inner : Datum} :
      value ∈ listed → Layout items value part inner → Layout (.array items) (.array listed) part inner
  | entry {values part : Schema} {entries : List (String × Datum)} {entry : String × Datum} {inner : Datum} :
      entry ∈ entries → Layout values entry.2 part inner → Layout (.map values) (.map entries) part inner
  | field {name : String} {fields : List Field} {listed : List Datum} {pair : Field × Datum}
      {part : Schema} {inner : Datum} :
      pair ∈ fields.zip listed → Layout pair.1.schema pair.2 part inner →
      Layout (.record name fields) (.record listed) part inner
  | branch {branches : List Schema} {branch part : Schema} {value inner : Datum} :
      branches.find? (takes · value) = some branch → Layout branch value part inner →
      Layout (.union branches) value part inner

/-- No array of items without width is longer than a reader allows. -/
def Roomy (s : Schema) (value : Datum) : Prop :=
  ∀ items listed, Layout s value (.array items) (.array listed) → items.span = 0 →
    listed.length ≤ zeroWidthLimit

/-- A value without parts is roomy. -/
theorem roomy_scalar {s : Schema} {value : Datum} (h : (s.kind.isStructured || s.kind == .union) = false) :
    Roomy s value := by
  intro items listed hp
  cases hp <;> cases h

/-- Null lays out nothing but null. -/
theorem roomy_null (s : Schema) : Roomy s .null := by
  have hl : ∀ {value part inner}, Layout s value part inner → value = .null → inner = .null := by
    intro value part inner hp
    induction hp with
    | self => exact id
    | branch _ _ ih => exact ih
    | item | entry | field => exact fun h => nomatch h
  intro items listed hp
  cases hl hp rfl

theorem roomy_array {items : Schema} {listed : List Datum} :
    Roomy (.array items) (.array listed) ↔
      (items.span = 0 → listed.length ≤ zeroWidthLimit) ∧ ∀ value ∈ listed, Roomy items value := by
  constructor
  · intro h
    exact ⟨h items listed (.self _ _), fun value hv part inner hp => h part inner (.item hv hp)⟩
  · rintro ⟨hl, hv⟩ part inner h
    cases h with
    | self => exact hl
    | item hm hp => exact hv _ hm part inner hp

theorem roomy_map {values : Schema} {entries : List (String × Datum)} :
    Roomy (.map values) (.map entries) ↔ ∀ entry ∈ entries, Roomy values entry.2 := by
  constructor
  · intro h entry he part inner hp
    exact h part inner (.entry he hp)
  · intro h part inner hp
    cases hp with
    | entry he hp => exact h _ he part inner hp

theorem roomy_record {name : String} {fields : List Field} {listed : List Datum} :
    Roomy (.record name fields) (.record listed) ↔
      ∀ pair ∈ fields.zip listed, Roomy pair.1.schema pair.2 := by
  constructor
  · intro h pair hm part inner hp
    exact h part inner (.field hm hp)
  · intro h part inner hp
    cases hp with
    | field hm hp => exact h _ hm part inner hp

theorem roomy_union {branches : List Schema} {branch : Schema} {value : Datum}
    (hb : branches.find? (takes · value) = some branch) :
    Roomy (.union branches) value ↔ Roomy branch value := by
  constructor
  · intro h part inner hp
    exact h part inner (.branch hb hp)
  · intro h part inner hp
    cases hp with
    | branch hf hp =>
        rw [hb, Option.some.injEq] at hf
        subst hf
        exact h part inner hp

/-- The bytes of a record's fields are those of the first and those of the others. -/
theorem encodeFields_cons_eq_ok {field : Field} {fields : List Field} {value : Datum} {values : List Datum}
    {bytes : List UInt8} (h : encodeFields (field :: fields) (value :: values) = .ok bytes) :
    ∃ first others, encode field.schema value = .ok first ∧ encodeFields fields values = .ok others ∧
      bytes = first ++ others := by
  obtain ⟨name, schema, default⟩ := field
  rw [encodeFields] at h
  obtain ⟨first, hf, h⟩ := bind_eq_ok h
  obtain ⟨others, ho, h⟩ := bind_eq_ok h
  exact ⟨first, others, hf, ho, (Except.ok.inj h).symm⟩

theorem encode_enum_eq_ok {name : String} {symbols : List String} {value : Datum} {bytes : List UInt8}
    (h : encode (.enum name symbols) value = .ok bytes) :
    ∃ symbol ordinal, value = .enum symbol ∧ Schema.ordinal? symbols symbol = some ordinal ∧
      bytes = Varint.encodeNat ordinal := by
  cases value <;> simp only [encode, reduceCtorEq] at h
  split at h
  · rename_i ordinal ho
    exact ⟨_, ordinal, rfl, ho, (Except.ok.inj h).symm⟩
  · cases h

theorem encode_fixed_eq_ok {name : String} {size : UInt64} {value : Datum} {bytes : List UInt8}
    (h : encode (.fixed name size) value = .ok bytes) : value = .fixed bytes ∧ bytes.length = size.toNat := by
  cases value <;> simp only [encode, reduceCtorEq] at h
  split at h
  · rename_i hl
    rw [← Except.ok.inj h]
    exact ⟨rfl, hl⟩
  · cases h

theorem encode_array_eq_ok {items : Schema} {value : Datum} {bytes : List UInt8}
    (h : encode (.array items) value = .ok bytes) :
    ∃ listed parts, value = .array listed ∧ bytes = block parts ∧
      List.Forall₂ (fun value part => encode items value = .ok part) listed parts := by
  cases value <;> simp only [encode, reduceCtorEq] at h
  obtain ⟨parts, hp, rfl⟩ := map_eq_ok h
  exact ⟨_, parts, rfl, rfl, mapM_eq_ok_iff.1 hp⟩

/-- Every entry of a map is a key and a value. -/
theorem encode_map_eq_ok {values : Schema} {value : Datum} {bytes : List UInt8}
    (h : encode (.map values) value = .ok bytes) :
    ∃ entries parts, value = .map entries ∧ bytes = block parts ∧
      List.Forall₂ (fun entry part => ∃ body, encode values entry.2 = .ok body ∧
        encodeText entry.1 ++ body = part) entries parts := by
  cases value <;> simp only [encode, reduceCtorEq] at h
  obtain ⟨parts, hp, rfl⟩ := map_eq_ok h
  exact ⟨_, parts, rfl, rfl, (mapM_eq_ok_iff.1 hp).imp fun _ _ he => map_eq_ok he⟩

theorem encode_record_eq_ok {name : String} {fields : List Field} {value : Datum} {bytes : List UInt8}
    (h : encode (.record name fields) value = .ok bytes) :
    ∃ listed, value = .record listed ∧ listed.length = fields.length ∧ encodeFields fields listed = .ok bytes := by
  cases value <;> simp only [encode, reduceCtorEq] at h
  split at h
  · rename_i hl
    exact ⟨_, rfl, hl, h⟩
  · cases h

/-- A union's bytes are the place of the first branch that takes the value and the
bytes of the value by that branch. -/
theorem encodeBranch_eq_ok {branches : List Schema} {position : Nat} {value : Datum} {bytes : List UInt8}
    (h : encodeBranch branches position value = .ok bytes) :
    ∃ place branch body, branches.find? (takes · value) = some branch ∧ branches[place]? = some branch ∧
      encode branch value = .ok body ∧ bytes = Varint.encodeNat (position + place) ++ body := by
  induction branches generalizing position with
  | nil => cases h
  | cons branch rest ih =>
      rw [encodeBranch] at h
      by_cases ht : takes branch value = true
      · rw [if_pos ht] at h
        obtain ⟨body, hb, hy⟩ := map_eq_ok h
        exact ⟨0, branch, body, List.find?_cons_of_pos ht, rfl, hb, hy.symm⟩
      · rw [if_neg ht] at h
        obtain ⟨place, found, body, hf, hp, hb, hy⟩ := ih h
        refine ⟨place + 1, found, body, (List.find?_cons_of_neg (p := (takes · value)) ht).trans hf, hp, hb, ?_⟩
        rw [hy, Nat.add_right_comm, Nat.add_assoc]

theorem length_block_pos (parts : List (List UInt8)) : 0 < (block parts).length := by
  rw [block]
  split
  · exact Varint.length_encodeNat_pos 0
  · rw [List.length_append]
    exact Nat.add_pos_right _ (Varint.length_encodeNat_pos 0)

theorem length_counted_pos (bytes : List UInt8) : 0 < (counted bytes).length := by
  rw [counted, List.length_append]
  exact Nat.add_pos_left (Varint.length_encodeNat_pos _) _

mutual

/-- No value is shorter than its schema's span. -/
theorem span_le_length : (s : Schema) → ∀ {value bytes}, encode s value = .ok bytes → s.span ≤ bytes.length
  | .null, _, _, _ => Nat.zero_le _
  | .boolean, value, bytes, h => by
      cases value <;> simp [encode] at h
      rw [← h]
      exact Nat.le_refl 1
  | .int, value, bytes, h => by
      cases value <;> simp [encode] at h
      rw [← h]
      exact Varint.length_encode_pos _
  | .long, value, bytes, h => by
      cases value <;> simp [encode] at h
      rw [← h]
      exact Varint.length_encode_pos _
  | .float, value, bytes, h => by
      cases value <;> simp [encode] at h
      rw [← h, length_littleEndian]
      exact Nat.le_refl 4
  | .double, value, bytes, h => by
      cases value <;> simp [encode] at h
      rw [← h, length_littleEndian]
      exact Nat.le_refl 8
  | .string, value, bytes, h => by
      cases value <;> simp [encode] at h
      rw [← h]
      exact length_counted_pos _
  | .bytes, value, bytes, h => by
      cases value <;> simp [encode] at h
      rw [← h]
      exact length_counted_pos _
  | .enum name symbols, value, bytes, h => by
      obtain ⟨symbol, ordinal, -, -, rfl⟩ := encode_enum_eq_ok h
      exact Varint.length_encodeNat_pos ordinal
  | .fixed name size, value, bytes, h => Nat.le_of_eq (encode_fixed_eq_ok h).2.symm
  | .array items, value, bytes, h => by
      obtain ⟨listed, parts, -, rfl, -⟩ := encode_array_eq_ok h
      exact length_block_pos parts
  | .map values, value, bytes, h => by
      obtain ⟨entries, parts, -, rfl, -⟩ := encode_map_eq_ok h
      exact length_block_pos parts
  | .record name fields, value, bytes, h => by
      obtain ⟨listed, -, hl, hf⟩ := encode_record_eq_ok h
      exact fieldsSpan_le_length fields hl hf
  | .union branches, value, bytes, h => by
      rw [encode] at h
      obtain ⟨place, branch, body, -, -, -, rfl⟩ := encodeBranch_eq_ok h
      rw [List.length_append]
      exact Nat.le_add_right_of_le (Varint.length_encodeNat_pos _)

theorem fieldsSpan_le_length : (fields : List Field) → ∀ {values bytes}, values.length = fields.length →
    encodeFields fields values = .ok bytes → Schema.fieldsSpan fields ≤ bytes.length
  | [], _, _, _, _ => Nat.zero_le _
  | ⟨name, schema, default⟩ :: fields, values, bytes, hl, h => by
      cases values with
      | nil => cases hl
      | cons value values =>
          obtain ⟨first, others, hf, ho, rfl⟩ := encodeFields_cons_eq_ok h
          rw [Schema.fieldsSpan, List.length_append]
          exact Nat.add_le_add (span_le_length schema hf) (fieldsSpan_le_length fields (Nat.succ.inj hl) ho)

end

end Docket.Blob
