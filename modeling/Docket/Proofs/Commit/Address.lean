import Docket.Proofs.Commit.Alone
import Docket.Proofs.FieldRoundTrip

/-!
# Which key a built document is under

The fields of a record and the two names that belong to the database share one
document, and the fields come last. A document that a commit builds is addressed by
its key unless the record puts something into a field that has one of these names:
then it is addressed by what was put, and no rule for schemas forbids such fields.
-/
namespace Docket.Commit

theorem coherent_addFields {record : Record} {desk : Desk} (hc : desk.cache.Coherent) (fields : List (Field × Nat))
    (document : Document) :
    (addFields record fields document desk).2.cache.Coherent := by
  induction fields generalizing document desk with
  | nil => exact hc
  | cons head fields ih =>
      obtain ⟨field, position⟩ := head
      have he := Field.coherent_encode hc field.name field.schema ((record.get? position).getD .null)
      rw [addFields]
      split
      · split
        · rename_i h
          rw [h] at he
          exact he
        · rename_i h
          rw [h] at he
          exact ih he _
      · exact ih hc _

theorem coherent_document {record : Record} {desk left : Desk} {id : String} {built : Document}
    (hc : desk.cache.Coherent) (hb : Commit.document id record desk = (.ok built, left)) : left.cache.Coherent := by
  have hl : (Commit.document id record desk).2 = left := by rw [hb]
  rw [← hl]
  exact coherent_addFields hc _ _

variable {record : Record} {id : String} {built : Document} {desk left : Desk}

/-- The names of the fields that the record puts something into. -/
def written (record : Record) : List String :=
  (record.schema.fields.zipIdx.filter fun e => puts record e.2).map fun e => e.1.name

theorem mem_written {name : String} : name ∈ written record ↔
    ∃ position field, record.schema.fields[position]? = some field ∧ field.name = name ∧
      puts record position = true := by
  rw [written, List.mem_map]
  constructor
  · rintro ⟨⟨field, position⟩, hm, hn⟩
    obtain ⟨hm, hp⟩ := List.mem_filter.1 hm
    exact ⟨position, field, mem_zipIdx_iff.1 hm, hn, hp⟩
  · rintro ⟨position, field, hf, hn, hp⟩
    exact ⟨(field, position), List.mem_filter.2 ⟨mem_zipIdx_iff.2 hf, hp⟩, hn⟩

/-- The document holds the stored form of every value that is put, whatever decoders
there are. -/
def Stores (record : Record) (built : Document) : Prop :=
  ∀ position field value, record.schema.fields[position]? = some field → record.isDirtyAt position = true →
    record.get? position = some value → value.isNull = false → ∀ later : Desk, later.Requested →
    ∃ stored, (Field.encode field.name field.schema value later).1 = .ok stored ∧
      built.find? field.name = some stored

/-- The document is the one that belongs under the identifier: it names the identifier
and no revision, and its other keys are the names of the fields that are put, each
with the stored form of its value. -/
structure Addresses (id : String) (record : Record) (built : Document) : Prop where
  id : built.find? Document.idField = some (.string id)
  rev : built.contains Document.revField = false
  keys : ∀ name, name ≠ Document.idField ∧ built.contains name = true ↔ name ∈ written record
  stores : Stores record built

theorem stores_document (hc : desk.cache.Coherent) (h : document id record desk = (.ok built, left)) :
    Stores record built := by
  intro position field value hf hd hv hn later hl
  obtain ⟨stored, he, hfind⟩ := find?_document_of_puts h hf (by rw [puts_eq hv, hd, hn]; rfl)
  rw [hv, Option.getD_some, Field.encode_eq (coherent_document hc h) hl.coherent] at he
  exact ⟨stored, he, hfind⟩

theorem contains_document_of_mem (h : document id record desk = (.ok built, left)) {name : String}
    (hn : name ∈ written record) : built.contains name = true := by
  obtain ⟨position, field, hf, rfl, hp⟩ := mem_written.1 hn
  obtain ⟨stored, -, hfind⟩ := find?_document_of_puts h hf hp
  rw [Keyed.contains, hfind]
  rfl

theorem find?_document_of_not_mem (h : document id record desk = (.ok built, left)) {name : String}
    (hn : name ∉ written record) : built.find? name = if name = Document.idField then some (.string id) else none := by
  refine find?_document_of_not_puts h fun position field hf heq => ?_
  cases hp : puts record position with
  | false => rfl
  | true => exact absurd (mem_written.2 ⟨position, field, hf, heq, hp⟩) hn

/-- Whatever its fields are called, a built document stores what is put and nothing
else. It is addressed by its key exactly when no field that is put has the name of
the identifier or of the revision. -/
theorem addresses_document_iff (hc : desk.Requested) (h : document id record desk = (.ok built, left)) :
    Stores record built ∧
      (∀ name, name ∉ written record →
        built.find? name = if name = Document.idField then some (.string id) else none) ∧
      (Addresses id record built ↔
        Document.idField ∉ written record ∧ Document.revField ∉ written record) := by
  refine ⟨stores_document hc.coherent h, fun name hn => find?_document_of_not_mem h hn, ?_, ?_⟩
  · intro ha
    refine ⟨fun hi => ((ha.keys _).2 hi).1 rfl, fun hr => ?_⟩
    have hrev := contains_document_of_mem h hr
    rw [ha.rev] at hrev
    cases hrev
  · rintro ⟨hi, hr⟩
    have hrev := find?_document_of_not_mem h hr
    rw [if_neg (by decide)] at hrev
    refine ⟨(find?_document_of_not_mem h hi).trans (if_pos rfl), by rw [Keyed.contains, hrev]; rfl, fun name => ?_,
      stores_document hc.coherent h⟩
    constructor
    · rintro ⟨hn, hb⟩
      by_contra hw
      rw [Keyed.contains, find?_document_of_not_mem h hw, if_neg hn] at hb
      cases hb
    · intro hw
      exact ⟨fun heq => hi (heq ▸ hw), contains_document_of_mem h hw⟩

/-- The name of a user is put, and the age is cleared. -/
theorem addresses_document_renamedUser :
    document "u1" renamedUser (.opened .info) = (.ok renamedDocument, .opened .info) ∧
      Addresses "u1" renamedUser renamedDocument := by
  have h := addresses_document_iff ⟨.opened .info, .zero, [], rfl⟩ document_renamedUser
  exact ⟨document_renamedUser, h.2.2.2 (by decide)⟩

/-- A note with a field that has the name of the identifier. -/
def strayNote : Record :=
  ((Record.fresh ⟨"Note", [⟨"_id", .string, none⟩, ⟨"text", .string, none⟩], rfl⟩).put 0 (.string "other")).put 1
    (.string "hello")

/-- Built for one key, the document of the note is addressed by another. -/
theorem not_addresses_document_strayNote : ∃ built,
    document "note:1" strayNote (.opened .info) = (.ok built, .opened .info) ∧
      built.find? Document.idField = some (.string "other") ∧ ¬Addresses "note:1" strayNote built := by
  refine ⟨_, rfl, rfl, fun h => ?_⟩
  have hi : some (Json.string "other") = some (Json.string "note:1") := h.id
  exact absurd (Json.string.inj (Option.some.inj hi)) (by decide)

end Docket.Commit
