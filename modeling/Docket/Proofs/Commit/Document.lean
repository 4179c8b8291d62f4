import Docket.Commit
import Docket.Proofs.Cache
import Docket.Proofs.Schema.Positions

/-!
# The document that a commit builds

It names the identifier, shows every marked value that is not null in its stored
form, and holds nothing else. Built again with a cache that has grown since, it is
the same.
-/
namespace Docket

namespace Commit

/-- Whether a record puts something into the field at a position. -/
def puts (record : Record) (position : Nat) : Bool :=
  record.isDirtyAt position && !((record.get? position).getD .null).isNull

variable {record : Record} {fields : List (Field × Nat)} {document built : Document} {desk left : Desk}

theorem addFields_cons_of_puts {field : Field} {position : Nat} (hp : puts record position = true)
    (h : addFields record ((field, position) :: fields) document desk = (.ok built, left)) :
    ∃ stored mid, Field.encode field.name field.schema ((record.get? position).getD .null) desk =
        (.ok stored, mid) ∧
      addFields record fields (document.insert field.name stored) mid = (.ok built, left) := by
  have hc : record.isDirtyAt position = true ∧ (!((record.get? position).getD .null).isNull) = true :=
    Bool.and_eq_true_iff.1 hp
  simp only [addFields, hc, and_self, if_true] at h
  split at h
  · cases h
  · rename_i stored mid he
    exact ⟨stored, mid, he, h⟩

theorem addFields_cons_of_encode {field : Field} {position : Nat} {stored : Json} {mid : Desk}
    (hp : puts record position = true)
    (he : Field.encode field.name field.schema ((record.get? position).getD .null) desk = (.ok stored, mid)) :
    addFields record ((field, position) :: fields) document desk =
      addFields record fields (document.insert field.name stored) mid := by
  have hc : record.isDirtyAt position = true ∧ (!((record.get? position).getD .null).isNull) = true :=
    Bool.and_eq_true_iff.1 hp
  simp only [addFields, hc, and_self, if_true, he]

theorem addFields_cons_of_not_puts {field : Field} {position : Nat} (hp : puts record position = false) :
    addFields record ((field, position) :: fields) document desk =
      addFields record fields document desk := by
  rw [addFields, if_neg]
  intro hc
  rw [puts, hc.1, hc.2] at hp
  cases hp

theorem addFields_extends (h : addFields record fields document desk = (.ok built, left)) :
    left.Extends desk := by
  induction fields generalizing document desk with
  | nil => cases h; exact .refl _
  | cons head fields ih =>
      obtain ⟨field, position⟩ := head
      cases hp : puts record position with
      | true =>
          obtain ⟨stored, mid, he, hr⟩ := addFields_cons_of_puts hp h
          have hm := Field.encode_extends field.name field.schema ((record.get? position).getD .null) desk
          rw [he] at hm
          exact (ih hr).trans hm
      | false =>
          rw [addFields_cons_of_not_puts hp] at h
          exact ih h

/-- Fields that the record puts nothing into leave the document as it was. -/
theorem find?_addFields_of_not_puts (h : addFields record fields document desk = (.ok built, left))
    {name : String} (hn : ∀ e ∈ fields, e.1.name = name → puts record e.2 = false) :
    built.find? name = document.find? name := by
  induction fields generalizing document desk with
  | nil => cases h; rfl
  | cons head fields ih =>
      obtain ⟨field, position⟩ := head
      obtain ⟨hh, hn⟩ := List.forall_mem_cons.1 hn
      cases hp : puts record position with
      | true =>
          obtain ⟨stored, mid, he, hr⟩ := addFields_cons_of_puts hp h
          have hd : name ≠ field.name := fun heq => by
            have hf := hh heq.symm
            rw [hp] at hf
            cases hf
          rw [ih hr hn, Keyed.find?_insert_of_ne _ hd]
      | false =>
          rw [addFields_cons_of_not_puts hp] at h
          exact ih h hn

/-- A field that the record puts something into holds its stored form, which the
desk that is left would give as well. -/
theorem find?_addFields_of_puts (h : addFields record fields document desk = (.ok built, left))
    (hd : (fields.map fun e => e.1.name).Nodup) {field : Field} {position : Nat}
    (hm : (field, position) ∈ fields) (hp : puts record position = true) :
    ∃ stored, (Field.encode field.name field.schema ((record.get? position).getD .null) left).1 = .ok stored ∧
      built.find? field.name = some stored := by
  induction fields generalizing document desk with
  | nil => exact absurd hm List.not_mem_nil
  | cons head fields ih =>
      rw [List.map_cons, List.nodup_cons] at hd
      obtain rfl | hm := List.mem_cons.1 hm
      · obtain ⟨stored, mid, he, hr⟩ := addFields_cons_of_puts hp h
        refine ⟨stored, ?_, ?_⟩
        · exact Field.encode_of_extends he (addFields_extends hr)
        · rw [find?_addFields_of_not_puts hr, Keyed.find?_insert_self]
          intro e he hn
          exact absurd (hn ▸ List.mem_map_of_mem he) hd.1
      · cases hf : puts record head.2 with
        | true =>
            obtain ⟨stored, mid, -, hr⟩ := addFields_cons_of_puts hf h
            exact ih hr hd.2 hm
        | false =>
            rw [← Prod.eta head, addFields_cons_of_not_puts hf] at h
            exact ih h hd.2 hm

/-- Built again later, with a cache that has grown, the document is the same. -/
theorem addFields_of_extends (h : addFields record fields document desk = (.ok built, left))
    {later : Desk} (hl : later.Extends left) :
    ∃ latest, addFields record fields document later = (.ok built, latest) ∧ latest.Extends later := by
  induction fields generalizing document desk later with
  | nil => cases h; exact ⟨later, rfl, .refl later⟩
  | cons head fields ih =>
      obtain ⟨field, position⟩ := head
      cases hp : puts record position with
      | true =>
          obtain ⟨stored, mid, he, hr⟩ := addFields_cons_of_puts hp h
          have hs : (Field.encode field.name field.schema ((record.get? position).getD .null) later).1 =
              .ok stored :=
            Field.encode_of_extends he (hl.trans (addFields_extends hr))
          have hx := Field.encode_extends field.name field.schema ((record.get? position).getD .null) later
          cases hk : Field.encode field.name field.schema ((record.get? position).getD .null) later with
          | mk result next =>
              rw [hk] at hs hx
              subst hs
              obtain ⟨latest, ha, hla⟩ := ih hr (hx.trans hl)
              have hc := Bool.and_eq_true_iff.1 hp
              refine ⟨latest, ?_, hla.trans hx⟩
              simp only [addFields, hc.1, hc.2, and_self, if_true, hk]
              exact ha
      | false =>
          rw [addFields_cons_of_not_puts hp] at h ⊢
          exact ih h hl

theorem document_of_extends {id : String} (h : Commit.document id record desk = (.ok built, left))
    {later : Desk} (hl : later.Extends left) :
    ∃ latest, Commit.document id record later = (.ok built, latest) ∧ latest.Extends later :=
  addFields_of_extends h hl

/-- The document shows what a record was marked with: the stored forms of the
values that are not null, as the desk gives them, and no field for the others. -/
structure Shows (desk : Desk) (record : Record) (document : Document) : Prop where
  put : ∀ position field value, record.schema.fields[position]? = some field →
    record.isDirtyAt position = true → record.get? position = some value → value.isNull = false →
    ∃ stored, (Field.encode field.name field.schema value desk).1 = .ok stored ∧
      document.find? field.name = some stored
  cleared : ∀ position field value, record.schema.fields[position]? = some field →
    record.isDirtyAt position = true → record.get? position = some value → value.isNull = true →
    document.find? field.name = none

/-- Whether a name is that of a marked field. -/
def marks (record : Record) (name : String) : Bool :=
  match record.schema.position? name with
  | some position => record.isDirtyAt position
  | none => false

theorem marks_eq_true {name : String} : marks record name = true ↔
    ∃ position, record.schema.position? name = some position ∧ record.isDirtyAt position = true := by
  unfold marks
  cases record.schema.position? name with
  | none => simp
  | some position => simp

theorem marks_field {position : Nat} {field : Field} (hf : record.schema.fields[position]? = some field) :
    marks record field.name = record.isDirtyAt position := by
  rw [marks, RecordSchema.position?_of_getElem? hf]

/-- Documents that agree on the marked fields show the same record. -/
theorem Shows.congr {other : Document} (h : Shows desk record document)
    (ho : ∀ name, marks record name = true → other.find? name = document.find? name) :
    Shows desk record other where
  put position field value hf hd hv hn := by
    rw [ho field.name (by rw [marks_field hf, hd])]
    exact h.put position field value hf hd hv hn
  cleared position field value hf hd hv hn := by
    rw [ho field.name (by rw [marks_field hf, hd])]
    exact h.cleared position field value hf hd hv hn

/-- No field of the schema has a name that belongs to the database. -/
def Unreserved (schema : RecordSchema) : Prop :=
  ∀ field ∈ schema.fields, Document.isReserved field.name = false

instance (schema : RecordSchema) : Decidable (Unreserved schema) :=
  inferInstanceAs (Decidable (∀ field ∈ schema.fields, Document.isReserved field.name = false))

/-- The built document names its identifier, shows the record, and has no other field. -/
structure Builds (id : String) (desk : Desk) (record : Record) (built : Document) : Prop
    extends Shows desk record built where
  id : built.find? Document.idField = some (.string id)
  other : ∀ name, marks record name = false → name ≠ Document.idField → built.find? name = none

theorem mem_zipIdx_iff {fields : List Field} {field : Field} {position : Nat} :
    (field, position) ∈ fields.zipIdx ↔ fields[position]? = some field := by
  rw [List.mem_zipIdx_iff_getElem?]

/-- A field that the record puts something into holds its stored form in the built document. -/
theorem find?_document_of_puts {id : String} (h : Commit.document id record desk = (.ok built, left))
    {position : Nat} {field : Field} (hf : record.schema.fields[position]? = some field)
    (hp : puts record position = true) :
    ∃ stored, (Field.encode field.name field.schema ((record.get? position).getD .null) left).1 = .ok stored ∧
      built.find? field.name = some stored := by
  have hd : (record.schema.fields.zipIdx.map fun e => e.1.name).Nodup := by
    have hn := record.schema.nodup_fieldNames
    rw [RecordSchema.fieldNames, ← List.zipIdx_map_fst 0 record.schema.fields, List.map_map] at hn
    exact hn
  exact find?_addFields_of_puts h hd (mem_zipIdx_iff.2 hf) hp

/-- Under a name that no such field has, there is the identifier or nothing. -/
theorem find?_document_of_not_puts {id name : String} (h : Commit.document id record desk = (.ok built, left))
    (hn : ∀ (position : Nat) (field : Field), record.schema.fields[position]? = some field → field.name = name →
      puts record position = false) :
    built.find? name = if name = Document.idField then some (.string id) else none := by
  rw [find?_addFields_of_not_puts h fun e he heq => hn e.2 e.1 (mem_zipIdx_iff.1 he) heq]
  split
  · rename_i hi
    rw [hi]
    exact Keyed.find?_insert_self _ _ _
  · rename_i hi
    exact Keyed.find?_insert_of_ne _ hi _

theorem puts_eq {position : Nat} {value : Datum} (hv : record.get? position = some value) :
    puts record position = (record.isDirtyAt position && !value.isNull) := by
  rw [puts, hv, Option.getD_some]

theorem builds_document {id : String} (hu : Unreserved record.schema)
    (h : Commit.document id record desk = (.ok built, left)) : Builds id left record built := by
  have hr : ∀ (position : Nat) (field : Field), record.schema.fields[position]? = some field →
      field.name ≠ Document.idField := by
    intro position field hf heq
    have hm := hu field (List.mem_of_getElem? hf)
    rw [heq] at hm
    exact absurd hm (by decide)
  refine { put := ?_, cleared := ?_, id := ?_, other := ?_ }
  · intro position field value hf hm hv hn
    have hc := find?_document_of_puts h hf (by rw [puts_eq hv, hm, hn]; rfl)
    rw [hv, Option.getD_some] at hc
    exact hc
  · intro position field value hf hm hv hn
    rw [find?_document_of_not_puts h, if_neg (hr _ _ hf)]
    intro other found hg heq
    rw [RecordSchema.position_eq_of_name_eq hg hf heq, puts_eq hv, hm, hn]
    rfl
  · rw [find?_document_of_not_puts h, if_pos rfl]
    intro position field hf heq
    exact absurd heq (hr _ _ hf)
  · intro name hm hn
    rw [find?_document_of_not_puts h, if_neg hn]
    intro position field hf heq
    rw [← heq, marks_field hf] at hm
    rw [puts, hm, Bool.false_and]

end Commit

end Docket
