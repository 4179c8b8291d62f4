import Docket.Proofs.Schema.Positions
import Docket.Schema.Index

/-!
# The index of a record schema tells its fields

The pass that makes a record schema fails where the check of its fields fails, and
for the same reason. When it ends well, every field stands under the position of
its declaration, and the file of names leads to the one field of each name. So the
look-ups that go through the file find what a search of the fields finds.
-/
namespace Docket

namespace RecordIndex

/-- The index is that of these fields: each is placed in its turn and filed under its
name, and no two have one name. -/
structure Covers (index : RecordIndex) (fields : List Field) : Prop where
  placed : index.fields = fields.zipIdx.map fun e => ⟨e.1, e.2⟩
  filed : ∀ name, index.position? name = fields.findIdx? (·.name = name)
  distinct : (fields.map Field.name).Nodup

variable {index : RecordIndex} {fields before : List Field} {field : Field}

theorem covers_empty : empty.Covers [] :=
  ⟨rfl, fun _ => rfl, .nil⟩

namespace Covers

theorem contains_iff (h : index.Covers fields) {name : String} :
    index.positions.contains name = true ↔ name ∈ fields.map Field.name := by
  change (index.position? name).isSome = true ↔ _
  rw [h.filed, List.findIdx?_isSome, List.any_eq_true, List.mem_map]
  simp only [decide_eq_true_eq]

/-- A field of a new name is placed behind the others. -/
theorem place (h : index.Covers fields) (record : String) (hc : field.schema.check = .ok ())
    (hn : field.name ∉ fields.map Field.name) :
    ∃ next, index.place record field fields.length = .ok next ∧ next.Covers (fields ++ [field]) := by
  have hk : ¬index.positions.contains field.name = true := fun hk => hn (h.contains_iff.1 hk)
  refine ⟨⟨index.fields ++ [⟨field, fields.length⟩], index.positions.insert field.name fields.length⟩, ?_, ?_⟩
  · simp only [RecordIndex.place, hc, if_neg hk]
  constructor
  case placed =>
    rw [h.placed, List.zipIdx_append, List.map_append]
    simp
  case filed =>
    intro name
    rw [List.findIdx?_append]
    by_cases he : name = field.name
    · have hnone : fields.findIdx? (·.name = field.name) = none := by
        rw [List.findIdx?_eq_none_iff]
        exact fun other ho => decide_eq_false fun hname => hn (hname ▸ List.mem_map_of_mem ho)
      simp [he, position?, hnone]
    · have hf := h.filed name
      simp only [position?] at hf ⊢
      rw [Keyed.find?_insert_of_ne _ he, hf]
      simp [Ne.symm he]
  case distinct =>
    rw [List.map_append, List.nodup_append]
    refine ⟨h.distinct, List.nodup_cons.2 ⟨List.not_mem_nil, .nil⟩, ?_⟩
    rintro name hm _ hs rfl
    rw [List.mem_singleton.1 hs] at hm
    exact hn hm

/-- A pass over more fields ends as their check ends. -/
theorem placeAll (h : index.Covers before) (record : String) (rest : List Field) {seen : List String}
    (hs : ∀ name, name ∈ seen ↔ name ∈ before.map Field.name) :
    (∀ e, Schema.checkFields record seen rest = .error e →
      RecordIndex.placeAll record (rest.zipIdx before.length) index = .error e) ∧
    (Schema.checkFields record seen rest = .ok () →
      ∃ next, RecordIndex.placeAll record (rest.zipIdx before.length) index = .ok next ∧
        next.Covers (before ++ rest)) := by
  induction rest generalizing index before seen with
  | nil =>
      rw [List.append_nil]
      exact ⟨fun e he => (by cases he), fun _ => ⟨index, rfl, h⟩⟩
  | cons field rest ih =>
      rw [Schema.checkFields, List.zipIdx_cons, RecordIndex.placeAll]
      cases hc : field.schema.check with
      | error e => simp [RecordIndex.place, hc]
      | ok _ =>
          by_cases hn : field.name ∈ before.map Field.name
          · have hk := h.contains_iff.2 hn
            have hm := (hs field.name).2 hn
            simp [RecordIndex.place, hc, hk, hm]
          · obtain ⟨next, hp, hnext⟩ := h.place record hc hn
            have hm : field.name ∉ seen := fun hm => hn ((hs field.name).1 hm)
            have hseen : ∀ name, name ∈ field.name :: seen ↔ name ∈ (before ++ [field]).map Field.name := by
              intro name
              simp [hs name, or_comm]
            have hrest := ih hnext hseen
            rw [List.length_append, List.length_singleton, List.append_assoc, List.singleton_append] at hrest
            simp only [hp, if_neg hm]
            exact hrest

end Covers

end RecordIndex

/-- Positions and names tell the fields of a record schema, through its index and by
a search alike. -/
structure RecordSchema.Indexed (r : RecordSchema) (index : RecordIndex) : Prop where
  distinct : r.fieldNames.Nodup
  /-- No field is left out, and none is moved. -/
  fields : index.fields.map PlacedField.field = r.fields
  position : ∀ i (placed : PlacedField), index.fields[i]? = some placed → placed.position = i
  position?_iff : ∀ name i, index.position? name = some i ↔ ∃ field, r.fields[i]? = some field ∧ field.name = name
  field?_iff : ∀ name (placed : PlacedField), index.field? name = some placed ↔
    index.fields[placed.position]? = some placed ∧ placed.field.name = name
  position?_eq : ∀ name, r.position? name = index.position? name
  field?_eq : ∀ name, r.field? name = (index.field? name).map PlacedField.field

namespace RecordIndex

theorem Covers.indexed {r : RecordSchema} (h : index.Covers r.fields) : r.Indexed index := by
  have hplaced : ∀ i : Nat, index.fields[i]? = (r.fields[i]?).map fun field => ⟨field, i⟩ := by
    intro i
    rw [h.placed, List.getElem?_map, List.getElem?_zipIdx, Option.map_map, Nat.zero_add]
    rfl
  have hposition : ∀ name i,
      index.position? name = some i ↔ ∃ field, r.fields[i]? = some field ∧ field.name = name := by
    intro name i
    rw [h.filed]
    exact r.position?_eq_some_iff
  have hat : ∀ {i : Nat} {field : Field}, r.fields[i]? = some field → index.field? field.name = some ⟨field, i⟩ := by
    intro i field hf
    rw [field?, (hposition field.name i).2 ⟨field, hf, rfl⟩, Option.bind_some, hplaced, hf]
    rfl
  constructor
  case distinct => exact h.distinct
  case fields =>
    rw [h.placed, List.map_map]
    exact List.zipIdx_map_fst 0 r.fields
  case position =>
    intro i placed hi
    rw [hplaced] at hi
    obtain ⟨field, -, rfl⟩ := Option.map_eq_some_iff.1 hi
    rfl
  case position?_iff => exact hposition
  case field?_iff =>
    rintro name ⟨field, i⟩
    constructor
    · intro hf
      rw [field?] at hf
      obtain ⟨position, hp, hi⟩ := Option.bind_eq_some_iff.1 hf
      obtain ⟨found, hr, rfl⟩ := (hposition name position).1 hp
      rw [hplaced, hr] at hi
      cases hi
      exact ⟨by rw [hplaced, hr]; rfl, rfl⟩
    · rintro ⟨hi, rfl⟩
      rw [hplaced] at hi
      obtain ⟨found, hr, he⟩ := Option.map_eq_some_iff.1 hi
      cases he
      exact hat hr
  case position?_eq => exact fun name => (h.filed name).symm
  case field?_eq =>
    intro name
    cases hp : index.position? name with
    | none =>
        have hnone : r.fields.findIdx? (·.name = name) = none := (h.filed name).symm.trans hp
        rw [field?, hp, RecordSchema.field?]
        exact List.find?_eq_none.2 fun field hm => Bool.eq_false_iff.1 (List.findIdx?_eq_none_iff.1 hnone field hm)
    | some i =>
        obtain ⟨field, hr, rfl⟩ := (hposition name i).1 hp
        rw [hat hr, RecordSchema.field?_of_getElem? hr]
        rfl

/-- The pass over the fields of a record schema ends with its index. -/
theorem exists_indexed (r : RecordSchema) : ∃ index, ofFields r.name r.fields = .ok index ∧ r.Indexed index := by
  obtain ⟨-, hok⟩ := covers_empty.placeAll r.name r.fields fun _ => Iff.rfl
  obtain ⟨index, hi, hc⟩ := hok r.checked
  exact ⟨index, hi, hc.indexed⟩

/-- Fields that make no record schema have no index, for the same reason. -/
theorem ofFields_eq_error {record : String} {declared : List Field} {e : SchemaError}
    (h : RecordSchema.ofFields record declared = .error e) : ofFields record declared = .error e := by
  obtain ⟨herror, -⟩ := covers_empty.placeAll record declared fun _ => Iff.rfl
  refine herror e ?_
  unfold RecordSchema.ofFields at h
  split at h
  · cases h
  · rename_i he
    cases h
    exact he

end RecordIndex

end Docket
