import Docket.Proofs.Schema.Defaults
import Docket.Proofs.Schema.Obtained

/-!
# A schema comes back as it was written

A schema is read back from the object it was written as. Each record in it is checked
again on the way, which it passes since it was checked when it was made, and nothing
is lost but the null defaults: those read as no default.
-/
namespace Docket

namespace Schema

variable {inside : Bool} {parts : List (String × Json)} {name : String}

theorem texts_map (symbols : List String) : texts (symbols.map .string) = .ok symbols := by
  induction symbols with
  | nil => rfl
  | cons symbol symbols ih => rw [List.map_cons, texts, ih]; rfl

theorem size_ofNat (n : UInt64) : size (.ofNat n.toNat) = .ok n := by
  have hv : (Json.ofNat n.toNat).natural? = some n.toNat := rfl
  have hn : n.toNat < 2 ^ 64 := n.toNat_lt
  simp only [size, hv, hn, if_true, Nat.toUInt64, UInt64.ofNat_toNat]

/-! ### One kind at a time

The parts of an object are found by their keys, in whatever order they stand. -/

theorem kind?_name (inside : Bool) (kind : Kind) : kind? inside (.string kind.name) = some kind := by
  cases kind <;> rfl

theorem read_enum {symbols : List String} (hk : (Entries.find? "type" parts).bind (kind? inside) = some .enum)
    (hn : Entries.find? "name" parts = some (.string name))
    (hs : Entries.find? "symbols" parts = some (.array (symbols.map .string))) :
    read inside (.object parts) = .ok (enum name symbols) := by
  rw [read.eq_def]
  simp only [hk, hn, hs, Option.mapM_some, text, Schema.symbols, texts_map]
  rfl

theorem read_fixed {length : UInt64} (hk : (Entries.find? "type" parts).bind (kind? inside) = some .fixed)
    (hn : Entries.find? "name" parts = some (.string name))
    (hs : Entries.find? "size" parts = some (.ofNat length.toNat)) :
    read inside (.object parts) = .ok (fixed name length) := by
  rw [read.eq_def]
  simp only [hk, hn, hs, Option.mapM_some, text, size_ofNat]
  rfl

theorem read_array {part : Json} (hk : (Entries.find? "type" parts).bind (kind? inside) = some .array)
    (hp : Entries.find? "items" parts = some part) :
    read inside (.object parts) = (read true part).map array := by
  rw [read.eq_def]
  simp only [hk]
  split
  · rename_i hf
    cases hp.symm.trans hf
    rfl
  · rename_i hf
    cases hp.symm.trans hf

theorem read_map {part : Json} (hk : (Entries.find? "type" parts).bind (kind? inside) = some .map)
    (hp : Entries.find? "values" parts = some part) :
    read inside (.object parts) = (read true part).map map := by
  rw [read.eq_def]
  simp only [hk]
  split
  · rename_i hf
    cases hp.symm.trans hf
    rfl
  · rename_i hf
    cases hp.symm.trans hf

theorem read_record {items : List Json} (hk : (Entries.find? "type" parts).bind (kind? inside) = some .record)
    (hn : Entries.find? "name" parts = some (.string name))
    (hf : Entries.find? "fields" parts = some (.array items)) :
    read inside (.object parts) = readFields true items >>= checkedRecord name := by
  rw [read.eq_def]
  simp only [hk, hn]
  split
  · rename_i he
    cases hf.symm.trans he
    rfl
  · rename_i he
    exact absurd hf (he _)

theorem read_union {items : List Json} (hk : (Entries.find? "type" parts).bind (kind? inside) = some .union)
    (hb : Entries.find? "branches" parts = some (.array items)) :
    read inside (.object parts) = (readBranches items).map union := by
  rw [read.eq_def]
  simp only [hk]
  split
  · rename_i he
    cases hb.symm.trans he
    rfl
  · rename_i he
    exact absurd hb (he _)

theorem readField_object {part : Json} (default : Option Json)
    (hn : Entries.find? "name" parts = some (.string name)) (hs : Entries.find? "schema" parts = some part)
    (hd : Entries.find? "default" parts = default) :
    readField inside (.object parts) = (read inside part).map fun schema => ⟨name, schema, default? default⟩ := by
  rw [readField.eq_def]
  simp only [hn, hd]
  split
  · rename_i he
    cases hs.symm.trans he
    cases read inside part <;> rfl
  · rename_i he
    cases hs.symm.trans he

/-! ### All of a schema -/

mutual

theorem read_toJson (inside : Bool) : (s : Schema) → s.Built → read inside s.toJson = .ok s.withoutNullDefaults
  | null, _ | boolean, _ | int, _ | long, _ | float, _ | double, _ | string, _ | bytes, _ => by
      rw [read.eq_def]
      rfl
  | enum name symbols, _ => read_enum (kind?_name inside .enum) rfl rfl
  | fixed name size, _ => read_fixed (kind?_name inside .fixed) rfl rfl
  | array items, h => by
      rw [toJson]
      have hi := read_toJson true items (h.child (List.mem_singleton_self _))
      exact Eq.trans (read_array (kind?_name inside .array) rfl) (congrArg _ hi)
  | map values, h => by
      rw [toJson]
      have hv := read_toJson true values (h.child (List.mem_singleton_self _))
      exact Eq.trans (read_map (kind?_name inside .map) rfl) (congrArg _ hv)
  | record name fields, h => by
      rw [toJson]
      -- the record is checked again, and defaults do not matter to that
      have hc : checkFields name [] fields = .ok () := h name fields (.self _)
      have hf := readFields_fieldsToJson true fields fun field hm => h.child (List.mem_map_of_mem hm)
      refine Eq.trans (read_record (kind?_name inside .record) rfl rfl) ?_
      rw [hf]
      show checkedRecord name (mapFieldDefaults default? fields) = _
      rw [checkedRecord, checkFields_mapFieldDefaults, hc]
      rfl
  | union branches, h => by
      rw [toJson]
      have hb := readBranches_branchesToJson branches fun branch hm => h.child hm
      exact Eq.trans (read_union (kind?_name inside .union) rfl) (congrArg _ hb)

theorem readFields_fieldsToJson (inside : Bool) : (fields : List Field) → (∀ field ∈ fields, field.schema.Built) →
    readFields inside (fieldsToJson fields) = .ok (mapFieldDefaults default? fields)
  | [], _ => by rw [fieldsToJson, readFields.eq_def]; rfl
  | ⟨name, schema, default⟩ :: fields, h => by
      obtain ⟨hs, hf⟩ := List.forall_mem_cons.1 h
      rw [fieldsToJson.eq_def, readFields.eq_def]
      dsimp only
      rw [readField_object default rfl rfl (by cases default <;> rfl), read_toJson inside schema hs,
        readFields_fieldsToJson inside fields hf]
      rfl

theorem readBranches_branchesToJson : (branches : List Schema) → (∀ branch ∈ branches, branch.Built) →
    readBranches (branchesToJson branches) = .ok (mapBranchDefaults default? branches)
  | [], _ => by rw [branchesToJson, readBranches.eq_def]; rfl
  | branch :: branches, h => by
      obtain ⟨hb, hr⟩ := List.forall_mem_cons.1 h
      rw [branchesToJson, readBranches.eq_def]
      dsimp only
      rw [read_toJson true branch hb, readBranches_branchesToJson branches hr]
      rfl

end

/-- A schema that was obtained and written reads as itself, less the null defaults at every depth. -/
theorem ofJson_toJson {s : Schema} (h : s.Obtained) : ofJson s.toJson = .ok s.withoutNullDefaults :=
  read_toJson false s h.built

/-! ### A list of houses -/

/-- Rooms are counted from one and the owner is unknown, unless the document says more. -/
def houses : Schema :=
  array (record "House" [
    ⟨"rooms", int, some (.ofNat 1)⟩,
    ⟨"garden", record "Garden" [⟨"beds", map (fixed "Bed" 2), some (.object [])⟩,
      ⟨"fence", boolean, some .null⟩], none⟩,
    ⟨"owner", union [null, string], some .null⟩])

/-- Both null defaults are gone, the one inside the garden too. -/
theorem ofJson_toJson_houses : ofJson houses.toJson = .ok (array (record "House" [
    ⟨"rooms", int, some (.ofNat 1)⟩,
    ⟨"garden", record "Garden" [⟨"beds", map (fixed "Bed" 2), some (.object [])⟩,
      ⟨"fence", boolean, none⟩], none⟩,
    ⟨"owner", union [null, string], none⟩])) :=
  ofJson_toJson (obtained_iff_built.2 (by decide))

end Schema

namespace RecordSchema

/-- A record schema reads as itself from its own object too, which does not tell its kind. -/
theorem map_ofJson_toJson {r : RecordSchema} (h : r.toSchema.Built) :
    (ofJson r.toJson).map toSchema = .ok r.toSchema.withoutNullDefaults := by
  have hf := Schema.readFields_fieldsToJson false r.fields fun field hm => h.child (List.mem_map_of_mem hm)
  have hc : Schema.checkFields r.name [] (Schema.mapFieldDefaults Schema.default? r.fields) = .ok () :=
    (Schema.checkFields_mapFieldDefaults _ _ _ _).trans r.checked
  have ho : ofFields r.name (Schema.mapFieldDefaults Schema.default? r.fields) = .ok ⟨_, _, hc⟩ :=
    ofFields_eq_ok_iff.2 ⟨rfl, rfl⟩
  have hr : ofJson r.toJson = Schema.readFields false (Schema.fieldsToJson r.fields) >>= ofParts r.name := rfl
  rw [hr, hf]
  show (ofParts r.name _).map toSchema = _
  rw [ofParts, ho]
  rfl

end RecordSchema

end Docket
