import Docket.Proofs.Assembly
import Docket.Proofs.Commit.Merge

/-!
# Records come back from documents

A document that shows a record is read as a clean record with every value that was
put, and null in every other field. The one exception is a value that is not roomy:
from the document that holds it no record can be read.
-/
namespace Docket

namespace Record

variable {document : Document} {record : Record} {desk : Desk}

/-- The value that a record's position comes back with. -/
def restored (record : Record) (position : Nat) : Datum :=
  match record.schema.fields[position]?, record.get? position with
  | some field, some value => if record.isDirtyAt position then Field.kept field.schema.carrier value else .null
  | _, _ => .null

theorem restored_eq {position : Nat} {field : Field} {datum : Datum}
    (hf : record.schema.fields[position]? = some field) (hv : record.get? position = some datum) :
    record.restored position =
      if record.isDirtyAt position then Field.kept field.schema.carrier datum else .null := by
  simp only [restored, hf, hv]

/-- The value that was put at a position can be read once it is written. -/
def RoomyAt (record : Record) (position : Nat) : Prop :=
  ∀ field value, record.schema.fields[position]? = some field → record.isDirtyAt position = true →
    record.get? position = some value → Blob.Roomy field.schema.carrier value

/-- Every value that was put can be read once it is written. -/
def Roomy (record : Record) : Prop :=
  ∀ position, record.RoomyAt position

/-- The values that were put fit a machine, and so do their blobs. -/
def Fits (record : Record) : Prop :=
  ∀ position field value, record.schema.fields[position]? = some field → record.isDirtyAt position = true →
    record.get? position = some value → Field.Fits field.schema.carrier value

/-- The record is clean and known to the store; it holds every value that was put
into another, and null everywhere else. -/
structure Restores (record after : Record) : Prop where
  schema : after.schema = record.schema
  clean : after.isDirty = false
  known : after.isNew = false
  put : ∀ position field value, record.schema.fields[position]? = some field →
    record.isDirtyAt position = true → record.get? position = some value →
    after.get? position = some (Field.kept field.schema.carrier value)
  other : ∀ position, position < record.schema.size → record.isDirtyAt position = false →
    after.get? position = some .null

theorem roomyAt_iff {position : Nat} {field : Field} {datum : Datum}
    (hf : record.schema.fields[position]? = some field) (hd : record.isDirtyAt position = true)
    (hv : record.get? position = some datum) : record.RoomyAt position ↔ Blob.Roomy field.schema.carrier datum := by
  constructor
  · intro h
    exact h field datum hf hd hv
  · intro h f v hf' _ hv'
    rw [← Option.some.inj (hf.symm.trans hf'), ← Option.some.inj (hv.symm.trans hv')]
    exact h

/-- A clean record of what comes back. -/
def comeBack (record : Record) : Record where
  schema := record.schema
  values := (List.range record.schema.size).map record.restored
  dirty := .clean record.schema.size
  isNew := false
  values_length := by rw [List.length_map, List.length_range]
  dirty_length := rfl

theorem get?_comeBack {position : Nat} (hp : position < record.schema.size) :
    record.comeBack.get? position = some (record.restored position) := by
  rw [get?, comeBack, List.getElem?_map, List.getElem?_range hp, Option.map_some]

theorem isDirty_comeBack (record : Record) : record.comeBack.isDirty = false := by
  simp [isDirty, comeBack, DirtyBits.any, DirtyBits.clean]

theorem restores_comeBack (record : Record) : Restores record record.comeBack where
  schema := rfl
  clean := isDirty_comeBack record
  known := rfl
  put position field value hf hd hv := by
    rw [get?_comeBack (List.getElem?_eq_some_iff.1 hf).1, restored_eq hf hv, if_pos hd]
  other position hp hd := by
    obtain ⟨value, hv⟩ := exists_get? record hp
    rw [get?_comeBack hp, restored_eq (List.getElem?_eq_getElem hp) hv, hd, if_neg Bool.false_ne_true]

/-- Of a document that shows a record, and has no field for what was not put, each field
is read as what comes back of it. -/
theorem decides_alone {id rev : String} {left : Desk} (hu : Commit.Unreserved record.schema)
    (hm : Commit.Merges id rev left record none document) (hl : left.cache.Coherent) (hf : record.Fits)
    (hc : desk.cache.Coherent) {position : Nat} {field : Field}
    (hfield : record.schema.fields[position]? = some field) :
    Decides (alone record.schema document desk position field) (record.restored position)
      (record.RoomyAt position) := by
  obtain ⟨value, hv⟩ := exists_get? record (List.getElem?_eq_some_iff.1 hfield).1
  rw [restored_eq hfield hv, alone]
  cases hd : record.isDirtyAt position with
  | false =>
      have hfind : document.find? field.name = none := by
        refine hm.kept field.name (hu field (List.mem_of_getElem? hfield)) ?_
        rw [Commit.marks_field hfield, hd]
      have hroomy : record.RoomyAt position := fun _ _ _ h => by
        rw [hd] at h
        cases h
      rw [hfind, if_neg Bool.false_ne_true]
      exact .of_ok rfl hroomy
  | true =>
      have hroomy := roomyAt_iff hfield hd hv
      rw [if_pos rfl]
      cases hn : value.isNull with
      | true =>
          obtain rfl := Datum.eq_null_of_isNull hn
          rw [hm.cleared position field .null hfield hd hv hn, Field.kept_null]
          exact .of_ok rfl (hroomy.2 (Blob.roomy_null _))
      | false =>
          obtain ⟨stored, he, hfind⟩ := hm.put position field value hfield hd hv hn
          have hdec := Field.decides_decode hl hc he hn (hf position field value hfield hd hv) position
            (fresh record.schema)
          rw [hfind]
          exact hdec.congr hroomy.symm

/-- A document that shows a record is assembled to what comes back of it, if that is
roomy. -/
theorem decides_assemble {id rev : String} {left : Desk} (hu : Commit.Unreserved record.schema)
    (hm : Commit.Merges id rev left record none document) (hl : left.cache.Coherent) (hc : desk.cache.Coherent)
    (hf : record.Fits) : ∃ after, Restores record after ∧
      Decides (assemble record.schema document [] desk).result after record.Roomy := by
  have hd : ∀ {position : Nat} {field : Field}, record.schema.fields[position]? = some field →
      Decides (alone record.schema document desk position field) (record.restored position)
        (record.RoomyAt position) := decides_alone hu hm hl hf hc
  refine ⟨record.comeBack, restores_comeBack record, fun hroomy => ?_, fun hroomy => ?_⟩
  · have hback : Assembled record.schema document desk record.schema.fieldNames record.comeBack := by
      refine ⟨isDirty_comeBack record, rfl, fun position field hfield _ => ?_, fun position field hfield hn => ?_, rfl⟩
      · exact ⟨_, (hd hfield).value (hroomy position), get?_comeBack (List.getElem?_eq_some_iff.1 hfield).1⟩
      · exact absurd (List.mem_map_of_mem (List.mem_of_getElem? hfield)) hn
    have hr : Readable record.schema document desk (requested record.schema []) := by
      intro name hn
      obtain ⟨field, hm, rfl⟩ := List.mem_map.1 hn
      obtain ⟨position, hfield⟩ := List.getElem?_of_mem hm
      exact ⟨position, field, _, hfield, rfl, (hd hfield).value (hroomy position)⟩
    obtain ⟨after, hok, ha⟩ := assemble_of_readable hc hc hr
    rw [hok, Assembled.unique ha hback]
  · obtain ⟨after, -, hr, -⟩ | ⟨name, hn, e, he, hm | ⟨position, field, hfield, -, ha⟩⟩ :=
      assemble_cases hc hc record.schema document []
    · -- a field that is not roomy is malformed, and so not readable
      refine absurd ?_ hroomy
      intro position field value hfield
      have hp : record.RoomyAt position := by
        by_contra hp
        obtain ⟨fault, hfault⟩ := (hd hfield).malformed hp
        exact hr.not_refused (List.mem_map_of_mem (List.mem_of_getElem? hfield))
          (.inr ⟨position, field, hfield, rfl, hfault⟩)
      exact hp field value hfield
    · exact absurd hn hm.1
    · by_cases hp : record.RoomyAt position
      · rw [(hd hfield).value hp] at ha
        cases ha
      · obtain ⟨fault, hfault⟩ := (hd hfield).malformed hp
        exact ⟨fault, by rw [he, Except.error.inj (ha.symm.trans hfault)]⟩

end Record

end Docket
