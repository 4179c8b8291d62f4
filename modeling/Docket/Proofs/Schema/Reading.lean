import Docket.Proofs.Schema.Positions
import Docket.Proofs.Schema.Rules
import Docket.Proofs.Success
import Docket.Schema.Json

/-!
# Schemas that were read

A document value can be read as a schema in several forms, but all of them go the
same way: the schemas inside are read from parts of the value, which are smaller,
and a record is checked once its fields are there. So whatever is read is made of
records that passed their check, at every depth.
-/
namespace Docket

namespace Schema

variable {s : Schema} {name : String} {fields : List Field} {branches : List Schema} {inside : Bool}
  {values : List Json}

/-- The schema keeps the rules of records itself, and the schemas directly inside it
were read from values smaller than this one. -/
structure ReadFrom (value : Json) (s : Schema) : Prop where
  here : s.BuiltHere
  below : ∀ child ∈ s.children, ∃ part, sizeOf part < sizeOf value ∧ read true part = .ok child

theorem readFrom_leaf {value : Json} (hb : s.BuiltHere) (hc : s.children = []) : ReadFrom value s :=
  ⟨hb, fun _ hm => absurd (hc ▸ hm) List.not_mem_nil⟩

theorem readFrom_primitive {value : Json} {kind : Kind} (h : required (primitive? kind) = .ok s) :
    ReadFrom value s := by
  cases kind <;> cases h <;> exact readFrom_leaf trivial rfl

theorem readFrom_array {value part : Json} (hl : sizeOf part < sizeOf value) (hp : read true part = .ok s) :
    ReadFrom value (array s) :=
  ⟨trivial, List.forall_mem_singleton.2 ⟨part, hl, hp⟩⟩

theorem readFrom_map {value part : Json} (hl : sizeOf part < sizeOf value) (hp : read true part = .ok s) :
    ReadFrom value (map s) :=
  ⟨trivial, List.forall_mem_singleton.2 ⟨part, hl, hp⟩⟩

/-- The schema of a field is read from a part of the field's value. -/
theorem exists_read_of_readField {value : Json} {field : Field} (h : readField inside value = .ok field) :
    ∃ part, sizeOf part < sizeOf value ∧ read inside part = .ok field.schema := by
  rw [readField.eq_def] at h
  split at h
  · obtain ⟨_, -, h⟩ := bind_eq_ok h
    split at h
    · rename_i part hf
      obtain ⟨schema, hs, h⟩ := bind_eq_ok h
      obtain ⟨_, -, h⟩ := bind_eq_ok h
      cases h
      have hl := sizeOf_lt_of_find? hf
      refine ⟨part, ?_, hs⟩
      rw [Json.object.sizeOf_spec]
      omega
    · cases h
  · rename_i part _
    obtain ⟨_, -, h⟩ := bind_eq_ok h
    obtain ⟨schema, hs, h⟩ := bind_eq_ok h
    obtain ⟨_, -, h⟩ := bind_eq_ok h
    cases h
    refine ⟨part, ?_, hs⟩
    simp only [Json.array.sizeOf_spec, List.cons.sizeOf_spec]
    omega
  · cases h

theorem exists_read_of_readFields (h : readFields inside values = .ok fields) :
    ∀ field ∈ fields, ∃ part, sizeOf part < sizeOf values ∧ read inside part = .ok field.schema := by
  induction values generalizing fields with
  | nil =>
      rw [readFields.eq_def] at h
      cases h
      exact fun _ hm => absurd hm List.not_mem_nil
  | cons value rest ih =>
      rw [readFields.eq_def] at h
      obtain ⟨first, hf, h⟩ := bind_eq_ok h
      obtain ⟨others, ho, h⟩ := bind_eq_ok h
      cases h
      rw [List.cons.sizeOf_spec]
      refine List.forall_mem_cons.2 ⟨?_, fun field hm => ?_⟩
      · obtain ⟨part, hl, hp⟩ := exists_read_of_readField hf
        exact ⟨part, by omega, hp⟩
      · obtain ⟨part, hl, hp⟩ := ih ho field hm
        exact ⟨part, by omega, hp⟩

theorem exists_read_of_readBranches (h : readBranches values = .ok branches) :
    ∀ branch ∈ branches, ∃ part, sizeOf part < sizeOf values ∧ read true part = .ok branch := by
  induction values generalizing branches with
  | nil =>
      rw [readBranches.eq_def] at h
      cases h
      exact fun _ hm => absurd hm List.not_mem_nil
  | cons value rest ih =>
      rw [readBranches.eq_def] at h
      obtain ⟨first, hf, h⟩ := bind_eq_ok h
      obtain ⟨others, ho, h⟩ := bind_eq_ok h
      cases h
      rw [List.cons.sizeOf_spec]
      refine List.forall_mem_cons.2 ⟨⟨value, by omega, hf⟩, fun branch hm => ?_⟩
      obtain ⟨part, hl, hp⟩ := ih ho branch hm
      exact ⟨part, by omega, hp⟩

theorem readFrom_record {value : Json} (hl : sizeOf values < sizeOf value) (hf : readFields true values = .ok fields)
    (h : checkedRecord name fields = .ok s) : ReadFrom value s := by
  unfold checkedRecord at h
  split at h
  · rename_i hc
    cases h
    refine ⟨hc, List.forall_mem_map.2 fun field hm => ?_⟩
    obtain ⟨part, hp, hr⟩ := exists_read_of_readFields hf field hm
    exact ⟨part, Nat.lt_trans hp hl, hr⟩
  · cases h

theorem readFrom_union {value : Json} (hl : sizeOf values < sizeOf value) (hb : readBranches values = .ok branches) :
    ReadFrom value (union branches) := by
  refine ⟨trivial, fun branch hm => ?_⟩
  obtain ⟨part, hp, hr⟩ := exists_read_of_readBranches hb branch hm
  exact ⟨part, Nat.lt_trans hp hl, hr⟩

/-- Parts by name. -/
theorem readFrom_object {parts : List (String × Json)} (h : read inside (.object parts) = .ok s) :
    ReadFrom (.object parts) s := by
  have smaller : ∀ {key : String} {part : Json}, Entries.find? key parts = some part →
      sizeOf part < sizeOf (Json.object parts) := fun hf => by
    have hl := sizeOf_lt_of_find? hf
    rw [Json.object.sizeOf_spec]
    omega
  have smallerList : ∀ {key : String} {items : List Json}, Entries.find? key parts = some (.array items) →
      sizeOf items < sizeOf (Json.object parts) := fun hf => by
    have hl := smaller hf
    rw [Json.array.sizeOf_spec] at hl
    omega
  rw [read.eq_def] at h
  dsimp only at h
  split at h
  case h_1 | h_2 =>
    obtain ⟨_, -, h⟩ := bind_eq_ok h
    obtain ⟨_, -, h⟩ := bind_eq_ok h
    obtain ⟨_, -, h⟩ := bind_eq_ok h
    obtain ⟨_, -, h⟩ := bind_eq_ok h
    cases h
    exact readFrom_leaf trivial rfl
  case h_3 =>
    split at h
    · rename_i hf
      obtain ⟨items, hi, rfl⟩ := map_eq_ok h
      exact readFrom_array (smaller hf) hi
    · cases h
  case h_4 =>
    split at h
    · rename_i hf
      obtain ⟨values, hv, rfl⟩ := map_eq_ok h
      exact readFrom_map (smaller hf) hv
    · cases h
  case h_5 =>
    split at h
    · rename_i hf
      obtain ⟨fields, hr, h⟩ := bind_eq_ok h
      obtain ⟨_, -, h⟩ := bind_eq_ok h
      obtain ⟨_, -, h⟩ := bind_eq_ok h
      exact readFrom_record (smallerList hf) hr h
    · cases h
  case h_6 =>
    split at h
    · rename_i hf
      obtain ⟨branches, hb, rfl⟩ := map_eq_ok h
      exact readFrom_union (smallerList hf) hb
    · cases h
  case h_7 => exact readFrom_primitive h
  case h_8 => cases h

/-- Parts in their order, after the kind. -/
theorem readFrom_list {tag : Json} {parts : List Json} (h : read inside (.array (tag :: parts)) = .ok s) :
    ReadFrom (.array (tag :: parts)) s := by
  rw [read.eq_def] at h
  dsimp only at h
  split at h
  case h_1 | h_2 =>
    obtain ⟨_, -, h⟩ := bind_eq_ok h
    obtain ⟨_, -, h⟩ := bind_eq_ok h
    obtain ⟨_, -, h⟩ := bind_eq_ok h
    cases h
    exact readFrom_leaf trivial rfl
  case h_3 =>
    obtain ⟨items, hi, h⟩ := bind_eq_ok h
    obtain ⟨_, -, h⟩ := bind_eq_ok h
    cases h
    exact readFrom_array (by simp only [Json.array.sizeOf_spec, List.cons.sizeOf_spec]; omega) hi
  case h_4 =>
    obtain ⟨values, hv, h⟩ := bind_eq_ok h
    obtain ⟨_, -, h⟩ := bind_eq_ok h
    cases h
    exact readFrom_map (by simp only [Json.array.sizeOf_spec, List.cons.sizeOf_spec]; omega) hv
  case h_5 =>
    obtain ⟨_, -, h⟩ := bind_eq_ok h
    obtain ⟨fields, hr, h⟩ := bind_eq_ok h
    obtain ⟨_, -, h⟩ := bind_eq_ok h
    exact readFrom_record (by simp only [Json.array.sizeOf_spec, List.cons.sizeOf_spec]; omega) hr h
  case h_6 =>
    obtain ⟨branches, hb, h⟩ := bind_eq_ok h
    obtain ⟨_, -, h⟩ := bind_eq_ok h
    cases h
    exact readFrom_union (by simp only [Json.array.sizeOf_spec, List.cons.sizeOf_spec]; omega) hb
  case h_7 =>
    obtain ⟨_, -, h⟩ := bind_eq_ok h
    exact readFrom_primitive h
  case h_8 => cases h

theorem readFrom_of_read {value : Json} (h : read inside value = .ok s) : ReadFrom value s := by
  match value with
  | .object parts => exact readFrom_object h
  | .array (tag :: parts) => exact readFrom_list h
  | .array [] | .null | .bool _ | .number _ | .string _ =>
      rw [read.eq_def] at h
      cases h

/-- Every record in a schema that was read has passed its check. -/
theorem built_of_read {value : Json} (h : read inside value = .ok s) : s.Built := by
  induction hn : sizeOf value using Nat.strongRecOn generalizing value inside s with
  | ind n ih =>
      obtain ⟨here, below⟩ := readFrom_of_read h
      rw [built_iff, everywhere_iff]
      refine ⟨here, fun child hc => ?_⟩
      obtain ⟨part, hl, hp⟩ := below child hc
      exact built_iff.1 (ih (sizeOf part) (hn ▸ hl) hp rfl)

end Schema

namespace RecordSchema

variable {r : RecordSchema} {value : Json}

/-- A record schema is made of fields that were read. -/
theorem exists_fields_of_ofJson (h : ofJson value = .ok r) :
    ∃ items name fields, Schema.readFields false items = .ok fields ∧ ofFields name fields = .ok r := by
  have made : ∀ {name : String} {fields : List Field},
      ofParts name fields = .ok r → ofFields name fields = .ok r := by
    intro name fields h
    unfold ofParts at h
    split at h
    · rename_i ho
      rw [ho, Except.ok.inj h]
    · cases h
  unfold ofJson at h
  split at h
  · split at h
    · obtain ⟨fields, hr, h⟩ := bind_eq_ok h
      obtain ⟨_, -, h⟩ := bind_eq_ok h
      obtain ⟨name, -, h⟩ := bind_eq_ok h
      exact ⟨_, name, fields, hr, made h⟩
    · cases h
  · obtain ⟨name, -, h⟩ := bind_eq_ok h
    obtain ⟨fields, hr, h⟩ := bind_eq_ok h
    obtain ⟨_, -, h⟩ := bind_eq_ok h
    exact ⟨_, name, fields, hr, made h⟩
  · cases h

/-- A record schema that was read has passed its check, and so has every record in it. -/
theorem built_of_ofJson (h : ofJson value = .ok r) : r.toSchema.Built := by
  obtain ⟨items, name, fields, hr, ho⟩ := exists_fields_of_ofJson h
  obtain ⟨-, hf⟩ := ofFields_eq_ok_iff.1 ho
  rw [Schema.built_iff, Schema.everywhere_iff]
  refine ⟨r.checked, List.forall_mem_map.2 fun field hm => ?_⟩
  obtain ⟨part, -, hp⟩ := Schema.exists_read_of_readFields hr field (hf ▸ hm)
  exact Schema.built_iff.1 (Schema.built_of_read hp)

end RecordSchema

end Docket
