import Docket.Schema.Check

/-!
# Fields by name and by position

No two fields of a record schema have one name, so a name stands for the position
of one field.
-/
namespace Docket

theorem Schema.nodup_of_checkFields {record : String} {seen : List String} {fields : List Field}
    (h : checkFields record seen fields = .ok ()) :
    (fields.map Field.name).Nodup ∧ ∀ field ∈ fields, field.name ∉ seen := by
  induction fields generalizing seen with
  | nil => exact ⟨.nil, fun field hf => absurd hf List.not_mem_nil⟩
  | cons first rest ih =>
      rw [checkFields] at h
      split at h
      · cases h
      · split at h
        · cases h
        · rename_i hs
          obtain ⟨hr, hd⟩ := ih h
          refine ⟨List.nodup_cons.2 ⟨?_, hr⟩, List.forall_mem_cons.2 ⟨hs, ?_⟩⟩
          · intro hm
            obtain ⟨field, hf, hn⟩ := List.mem_map.1 hm
            exact hd field hf (hn ▸ List.mem_cons_self)
          · intro field hf hm
            exact hd field hf (List.mem_cons_of_mem _ hm)

namespace RecordSchema

variable {r : RecordSchema} {name : String} {position : Nat} {field : Field}

/-- A record schema is made of the name and the fields that were asked for. -/
theorem ofFields_eq_ok_iff {fields : List Field} :
    ofFields name fields = .ok r ↔ r.name = name ∧ r.fields = fields := by
  constructor
  · intro h
    unfold ofFields at h
    split at h
    · cases h
      exact ⟨rfl, rfl⟩
    · cases h
  · rintro ⟨rfl, rfl⟩
    unfold ofFields
    split
    · rfl
    · rename_i he
      rw [r.checked] at he
      cases he

theorem nodup_fieldNames (r : RecordSchema) : r.fieldNames.Nodup :=
  (Schema.nodup_of_checkFields r.checked).1

theorem position?_of_getElem? (h : r.fields[position]? = some field) :
    r.position? field.name = some position := by
  obtain ⟨hp, rfl⟩ := List.getElem?_eq_some_iff.1 h
  refine List.findIdx?_eq_some_iff_getElem.2 ⟨hp, by simp, fun j hj hn => ?_⟩
  have hl : j < r.fields.length := Nat.lt_trans hj hp
  have hd := List.pairwise_iff_getElem.1 (List.pairwise_map.1 r.nodup_fieldNames) j position hl hp hj
  exact hd (of_decide_eq_true hn)

theorem field?_of_getElem? (h : r.fields[position]? = some field) : r.field? field.name = some field := by
  obtain ⟨hp, -, hmin⟩ := List.findIdx?_eq_some_iff_getElem.1 (position?_of_getElem? h)
  have hf : r.fields[position] = field := (List.getElem?_eq_some_iff.1 h).2
  rw [field?, List.find?_eq_some_iff_getElem]
  exact ⟨by simp, position, hp, hf, fun j hj => by simpa using hmin j hj⟩

/-- Fields of one name stand at one position. -/
theorem position_eq_of_name_eq {other : Nat} {found : Field} (h : r.fields[position]? = some field)
    (hf : r.fields[other]? = some found) (hn : field.name = found.name) : position = other := by
  have hp := position?_of_getElem? h
  rw [hn, position?_of_getElem? hf] at hp
  exact (Option.some.inj hp).symm

/-- A name stands for the position of the field that has it. -/
theorem position?_eq_some_iff :
    r.position? name = some position ↔ ∃ field, r.fields[position]? = some field ∧ field.name = name := by
  constructor
  · intro h
    obtain ⟨hp, hn, -⟩ := List.findIdx?_eq_some_iff_getElem.1 h
    exact ⟨_, List.getElem?_eq_getElem hp, of_decide_eq_true hn⟩
  · rintro ⟨field, hf, rfl⟩
    exact position?_of_getElem? hf

end RecordSchema

end Docket
