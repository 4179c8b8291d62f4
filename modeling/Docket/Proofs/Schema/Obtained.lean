import Docket.Proofs.Schema.Index
import Docket.Proofs.Schema.Reading

/-!
# Schemas that can be obtained

There are two ways to a schema: to build it, a record from fields that pass their
check, or to read it. On both every record is checked when it is made, so whatever
is obtained has nothing but records that were checked, at every depth, and all such
schemas can be obtained. Therefore the check of a schema, which does not enter
records, decides whether the rules are kept at every depth, and in every record of
the schema a name stands for one field.
-/
namespace Docket.Schema

/-- The schema was put together from schemas that were obtained before it, or it was
read. -/
inductive Obtained : Schema → Prop where
  | leaf {s : Schema} : (s.kind.isStructured || s.kind == .union) = false → Obtained s
  | array {items : Schema} : Obtained items → Obtained (array items)
  | map {values : Schema} : Obtained values → Obtained (map values)
  | union {branches : List Schema} : (∀ branch ∈ branches, Obtained branch) → Obtained (union branches)
  | record {name : String} {fields : List Field} {r : RecordSchema} : (∀ field ∈ fields, Obtained field.schema) →
      RecordSchema.ofFields name fields = .ok r → Obtained r.toSchema
  | read {value : Json} {s : Schema} : ofJson value = .ok s → Obtained s
  | readRecord {value : Json} {r : RecordSchema} : RecordSchema.ofJson value = .ok r → Obtained r.toSchema

variable {s : Schema}

theorem Obtained.built (h : s.Obtained) : s.Built := by
  induction h with
  | @leaf s hk =>
      rw [built_iff]
      cases s <;> first | exact (everywhere_scalar rfl).2 trivial | cases hk
  | array _ ih => exact built_iff.2 (everywhere_array.2 ⟨trivial, built_iff.1 ih⟩)
  | map _ ih => exact built_iff.2 (everywhere_map.2 ⟨trivial, built_iff.1 ih⟩)
  | union _ ih => exact built_iff.2 (everywhere_union.2 ⟨trivial, fun branch hm => built_iff.1 (ih branch hm)⟩)
  | @record name fields r _ ho ih =>
      obtain ⟨-, rfl⟩ := RecordSchema.ofFields_eq_ok_iff.1 ho
      exact built_iff.2 (everywhere_record.2 ⟨r.checked, fun field hm => built_iff.1 (ih field hm)⟩)
  | read h => exact built_of_read h
  | readRecord h => exact RecordSchema.built_of_ofJson h

/-- Nothing but a record that breaks the rules of records is out of reach. -/
theorem obtained_iff_built : s.Obtained ↔ s.Built := by
  refine ⟨Obtained.built, fun h => ?_⟩
  induction s using children_induction with
  | step s ih =>
    have below : ∀ child ∈ s.children, child.Obtained := fun child hc => ih child hc (h.child hc)
    cases s with
    | array items => exact .array (below items (List.mem_singleton_self _))
    | map values => exact .map (below values (List.mem_singleton_self _))
    | union branches => exact .union below
    | record name fields =>
        let r : RecordSchema := ⟨name, fields, h name fields (.self _)⟩
        have ho : RecordSchema.ofFields name fields = .ok r := RecordSchema.ofFields_eq_ok_iff.2 ⟨rfl, rfl⟩
        exact .record (List.forall_mem_map.1 below) ho
    | _ => exact .leaf rfl

/-- The check of a schema that was obtained decides whether the rules are kept at every
depth, and every record in the schema has an index that tells its fields. -/
theorem checked_and_indexed (h : s.Obtained) :
    (s.check = .ok () ↔ s.Sound) ∧
      ∀ name fields, (record name fields).Within s → ∃ (r : RecordSchema) (index : RecordIndex),
        RecordSchema.ofFields name fields = .ok r ∧ RecordIndex.ofFields name fields = .ok index ∧
        r.Indexed index := by
  refine ⟨check_eq_ok_iff h.built, fun name fields hw => ?_⟩
  let r : RecordSchema := ⟨name, fields, h.built name fields hw⟩
  obtain ⟨index, hi, hr⟩ := RecordIndex.exists_indexed r
  exact ⟨r, index, RecordSchema.ofFields_eq_ok_iff.2 ⟨rfl, rfl⟩, hi, hr⟩

/-! ### Cars in a list -/

def carSchema : RecordSchema :=
  ⟨"Car", [⟨"colour", .enum "Colour" ["red", "blue"], none⟩, ⟨"owner", .union [.null, .string], none⟩], rfl⟩

theorem obtained_cars : (array carSchema.toSchema).Obtained := by
  have hf : ∀ field ∈ carSchema.fields, field.schema.Obtained := by
    have ho : (union [null, string]).Obtained :=
      .union (List.forall_mem_cons.2 ⟨.leaf rfl, List.forall_mem_singleton.2 (.leaf rfl)⟩)
    exact List.forall_mem_cons.2 ⟨.leaf rfl, List.forall_mem_singleton.2 ho⟩
  exact .array (.record hf (RecordSchema.ofFields_eq_ok_iff.2 ⟨rfl, rfl⟩))

/-- The list keeps the rules inside the record too, where the owner is the second field. -/
theorem checked_and_indexed_cars : (array carSchema.toSchema).Sound ∧
    ∃ (r : RecordSchema) (index : RecordIndex), RecordSchema.ofFields "Car" carSchema.fields = .ok r ∧
      RecordIndex.ofFields "Car" carSchema.fields = .ok index ∧ index.position? "owner" = some 1 ∧
      r.position? "owner" = some 1 := by
  obtain ⟨hcheck, hindex⟩ := checked_and_indexed obtained_cars
  obtain ⟨r, index, hr, hi, h⟩ := hindex "Car" carSchema.fields (.items (.self _))
  have hown : index.position? "owner" = some 1 := by
    obtain ⟨-, hf⟩ := RecordSchema.ofFields_eq_ok_iff.1 hr
    refine (h.position?_iff "owner" 1).2 ⟨⟨"owner", .union [.null, .string], none⟩, ?_, rfl⟩
    rw [hf]
    rfl
  exact ⟨hcheck.1 rfl, r, index, hr, hi, hown, (h.position?_eq "owner").trans hown⟩

end Docket.Schema
