import Docket.Store
import Docket.Proofs.Commit.Address
import Docket.Proofs.Record

/-!
# A record that was put is got again

Under a free identifier a record is written at the first attempt, whatever its
values. It is got again if it is roomy. If it is not, it was written all the same,
and every attempt to get it fails.
-/
namespace Docket

namespace Commit

/-- A document can be built of a record whose values can all be stored. -/
theorem addFields_of_encodes {record : Record} {desk : Desk} (hc : desk.cache.Coherent) {fields : List (Field × Nat)}
    (h : ∀ e ∈ fields, puts record e.2 = true → ∀ desk : Desk, desk.cache.Coherent →
      ∃ stored, (Field.encode e.1.name e.1.schema ((record.get? e.2).getD .null) desk).1 = .ok stored)
    (document : Document) : ∃ built left, addFields record fields document desk = (.ok built, left) := by
  induction fields generalizing document desk with
  | nil => exact ⟨document, desk, rfl⟩
  | cons head fields ih =>
      obtain ⟨field, position⟩ := head
      obtain ⟨hhead, hrest⟩ := List.forall_mem_cons.1 h
      cases hp : puts record position with
      | true =>
          obtain ⟨stored, hs⟩ := hhead hp desk hc
          have he := Field.coherent_encode hc field.name field.schema ((record.get? position).getD .null)
          rw [addFields_cons_of_encode hp (Prod.ext hs rfl)]
          exact ih he hrest _
      | false =>
          rw [addFields_cons_of_not_puts hp]
          exact ih hc hrest document

end Commit

namespace Store

open Commit

variable {s : Store} {id : String} {record : Record} {desk left later : Desk} {db : Database} {built : Document}

/-- What is got is assembled of the live document. -/
theorem result_get (s : Store) (hp : db.present = true) {document : Document} (hl : db.live? id = some document)
    (fields : List String) (desk : Desk) : ((s.get id fields desk).run Database.client db).1.1 =
      match (Record.assemble s.schema document fields desk).result with
      | .ok record => .ok (some record)
      | .error e => .error (.value e) := by
  have hg : Database.client.answer db (.get id) = (.ok (some document), db) := by
    rw [← hl]
    exact Database.answer_get hp
  simp only [get, Dialogue.run, hg, assemble]
  cases (Record.assemble s.schema document fields desk).result <;> rfl

/-- Under a free identifier a record is written at the first attempt. -/
theorem put_of_free (hu : Unreserved record.schema) (hp : db.present = true) (hl : db.live? id = none)
    (hw : record.needsWrite = true) (hb : document id record desk = (.ok built, left)) :
    let final := (s.put id record desk).run Database.client db
    final.1.result = .ok (.written (db.nextRevision id (some built))) ∧
      final.2 = db.written id (some built) ∧ final.1.desk.cache = left.cache := by
  have ha : Addressed id built := (builds_document hu hb).addressed hu
  rw [put, commit_eq_dialogue _ hw hb]
  obtain ⟨hres, hdb, -⟩ :=
    quiet_of_not_live (w := ⟨id, built, record⟩) hp ha hl false s.settings.conflictRetries left
  exact ⟨hres, hdb, (Writer.faithful_run Database.client _ built left db).cache⟩

/-- What was written is got as a record that restores it, if it is roomy. -/
theorem get_written (hs : record.schema = s.schema) (hu : Unreserved s.schema) (hp : db.present = true)
    (hc : desk.cache.Coherent) (hf : record.Fits) (hb : document id record desk = (.ok built, left))
    (hl : later.cache.Coherent) :
    let second := (s.get id [] later).run Database.client (db.written id (some built))
    ∃ restored, record.Restores restored ∧ (record.Roomy → second.1.1 = .ok (some restored)) ∧
      (¬record.Roomy → ∃ fault, second.1.1 = .error (.value (.malformed fault))) := by
  rw [← hs] at hu
  have hm := merges_stored (db.nextRevision id (some built)) hu (builds_document hu hb) none
  obtain ⟨restored, hr, hd⟩ := Record.decides_assemble hu hm (coherent_document hc hb) hl hf
  rw [hs] at hd
  have hlive : (db.written id (some built)).live? id =
      some ((merged record built none).insert Document.revField (.string (db.nextRevision id (some built)))) :=
    Database.live?_written_self
  have hpresent : (db.written id (some built)).present = true := hp
  refine ⟨restored, hr, fun hroomy => ?_, fun hroomy => ?_⟩
  · rw [result_get s hpresent hlive, hd.value hroomy]
  · obtain ⟨fault, he⟩ := hd.malformed hroomy
    exact ⟨fault, by rw [result_get s hpresent hlive, he]⟩

/-- A record that was put under a free identifier is got again, restored, if it is
roomy; if not, getting it fails. Decoders that were kept in between do not matter. -/
theorem get_put (hs : record.schema = s.schema) (hu : Unreserved s.schema) (hp : db.present = true)
    (hl : db.live? id = none) (hc : desk.cache.Coherent) (hf : record.Fits) {rev : String}
    (hres : ((s.put id record desk).run Database.client db).1.result = .ok (.written rev)) :
    let first := (s.put id record desk).run Database.client db
    first.1.desk.cache.Coherent ∧ ∀ later : Desk, later.cache.Coherent →
      let second := (s.get id [] later).run Database.client first.2
      (record.Roomy → ∃ restored, second.1.1 = .ok (some restored) ∧ record.Restores restored) ∧
        (¬record.Roomy → ∃ fault, second.1.1 = .error (.value (.malformed fault))) := by
  obtain ⟨hw, built, hb⟩ | ⟨committed, hd, hnot⟩ := commit_cases record id s.settings.conflictRetries desk
  · obtain ⟨-, hdb, hcache⟩ := put_of_free (s := s) (hs ▸ hu) hp hl hw hb
    dsimp only
    rw [hdb, hcache]
    refine ⟨coherent_document hc hb, fun later hlater => ?_⟩
    obtain ⟨restored, hr, hok, hbad⟩ := get_written hs hu hp hc hf hb hlater
    exact ⟨fun hroomy => ⟨restored, hok hroomy, hr⟩, hbad⟩
  · rw [put, hd] at hres
    exact absurd hres (hnot rev)

/-! ### Marks without width -/

/-- A reading has a ratio, and marks that hold nothing but their number. -/
def readingSchema : RecordSchema :=
  ⟨"Reading", [⟨"ratio", .float, none⟩, ⟨"marks", .array .null, none⟩], rfl⟩

def readings : Store :=
  ⟨.new "readings", readingSchema⟩

def markList (n : Nat) : Datum :=
  .array (List.replicate n .null)

/-- A reading of one and a half, with a number of marks. -/
def reading (n : Nat) : Record :=
  ((Record.fresh readingSchema).put 0 (.float 0x3fc00000)).put 1 (markList n)

theorem encode_markList (n : Nat) : ∃ bytes, Blob.encode (.array .null) (markList n) = .ok bytes := by
  have hm : (List.replicate n Datum.null).mapM (Blob.encode .null) = .ok (List.replicate n []) := by
    refine mapM_eq_ok_iff.2 ?_
    induction n with
    | zero => exact .nil
    | succ n ih => exact .cons rfl ih
  exact ⟨Blob.block (List.replicate n []), by rw [markList, Blob.encode, hm]; rfl⟩

theorem roomy_markList (n : Nat) : Blob.Roomy (.array .null) (markList n) ↔ n ≤ Blob.zeroWidthLimit := by
  rw [markList, Blob.roomy_array, List.length_replicate]
  constructor
  · intro h
    exact h.1 rfl
  · intro h
    refine ⟨fun _ => h, fun value hv => ?_⟩
    rw [List.eq_of_mem_replicate hv]
    exact Blob.roomy_null _

/-- The values of a reading. -/
theorem reading_cases {n position : Nat} {field : Field} {value : Datum}
    (hf : (reading n).schema.fields[position]? = some field) (hv : (reading n).get? position = some value) :
    (field = ⟨"ratio", .float, none⟩ ∧ value = .float 0x3fc00000) ∨
      (position = 1 ∧ field = ⟨"marks", .array .null, none⟩ ∧ value = markList n) := by
  match position with
  | 0 =>
      cases hf
      cases hv
      exact .inl ⟨rfl, rfl⟩
  | 1 =>
      cases hf
      cases hv
      exact .inr ⟨rfl, rfl, rfl⟩
  | position + 2 => cases hf

theorem isDirtyAt_reading (n position : Nat) : (reading n).isDirtyAt position = (reading 0).isDirtyAt position := by
  rfl

theorem roomy_reading (n : Nat) : (reading n).Roomy ↔ n ≤ Blob.zeroWidthLimit := by
  constructor
  · intro h
    have hd : (reading n).isDirtyAt 1 = true := by
      rw [isDirtyAt_reading]
      decide
    exact (roomy_markList n).1 (h 1 ⟨"marks", .array .null, none⟩ (markList n) rfl hd rfl)
  · intro h position field value hf _ hv
    obtain ⟨rfl, rfl⟩ | ⟨-, rfl, rfl⟩ := reading_cases hf hv
    · exact Blob.roomy_scalar rfl
    · exact (roomy_markList n).2 h

theorem fits_reading {n : Nat} (hn : n ≤ Blob.zeroWidthLimit + 1) : (reading n).Fits := by
  have hl : n < 2 ^ 63 := Nat.lt_of_le_of_lt hn (by decide)
  intro position field value hf _ hv
  obtain ⟨rfl, rfl⟩ | ⟨-, rfl, rfl⟩ := reading_cases hf hv
  · exact ⟨⟨by decide, by decide, by decide⟩, fun _ _ => .inl (by decide)⟩
  · refine ⟨⟨by decide, ?_, ?_⟩, fun _ _ => .inl (by decide)⟩
    · refine Datum.everywhere_array.2 ⟨?_, fun value hv => ?_⟩
      · simpa [Datum.lengths] using hl
      · rw [List.eq_of_mem_replicate hv]
        decide
    · refine Datum.ordered_iff.2 (Datum.everywhere_array.2 ⟨trivial, fun value hv => ?_⟩)
      rw [List.eq_of_mem_replicate hv]
      exact Datum.ordered_iff.1 (by decide)

theorem document_reading (n : Nat) (id : String) :
    ∃ built left, document id (reading n) (.opened .info) = (.ok built, left) := by
  refine addFields_of_encodes DecoderCache.coherent_empty ?_ _
  rintro ⟨field, position⟩ he - desk hc
  have hf := mem_zipIdx_iff.1 he
  obtain ⟨value, hv⟩ := (reading n).exists_get? (List.getElem?_eq_some_iff.1 hf).1
  dsimp only
  rw [hv, Option.getD_some]
  obtain ⟨rfl, rfl⟩ | ⟨-, rfl, rfl⟩ := reading_cases hf hv
  · exact ⟨_, rfl⟩
  · obtain ⟨bytes, hb⟩ := encode_markList n
    exact ⟨_, Field.encode_of_blob hc "marks" rfl rfl hb⟩

theorem unreserved_reading : Unreserved readingSchema := by
  decide

/-- A reading is written, whatever the number of its marks. -/
theorem put_reading (n : Nat) : ∃ built left, document "m" (reading n) (.opened .info) = (.ok built, left) ∧
    let final := (readings.put "m" (reading n) (.opened .info)).run Database.client (.new "readings")
    final.1.result = .ok (.written ((Database.new "readings").nextRevision "m" (some built))) ∧
      final.2 = (Database.new "readings").written "m" (some built) ∧ final.1.desk.cache = left.cache := by
  obtain ⟨built, left, hb⟩ := document_reading n "m"
  exact ⟨built, left, hb, put_of_free unreserved_reading rfl rfl rfl hb⟩

/-- As many marks as a reader allows come back. -/
theorem get_put_reading : ∃ rev restored,
    let first := (readings.put "m" (reading 65536) (.opened .info)).run Database.client (.new "readings")
    let second := (readings.get "m" [] first.1.desk).run Database.client first.2
    first.1.result = .ok (.written rev) ∧ second.1.1 = .ok (some restored) ∧
      (reading 65536).Restores restored := by
  obtain ⟨built, left, -, hres, -⟩ := put_reading 65536
  obtain ⟨hc, hget⟩ := get_put rfl unreserved_reading rfl rfl DecoderCache.coherent_empty
    (fits_reading (by decide)) hres
  obtain ⟨restored, hok, hr⟩ := (hget _ hc).1 ((roomy_reading 65536).2 (by decide))
  exact ⟨_, restored, hres, hok, hr⟩

/-- One mark more, and the reading that was written cannot be got. -/
theorem get_loses_reading : ∃ rev,
    let first := (readings.put "m" (reading 65537) (.opened .info)).run Database.client (.new "readings")
    let second := (readings.get "m" [] first.1.desk).run Database.client first.2
    first.1.result = .ok (.written rev) ∧
      ¬∃ restored, second.1.1 = .ok (some restored) ∧ (reading 65537).Restores restored := by
  obtain ⟨built, left, hb, hres, hdb, hcache⟩ := put_reading 65537
  have hc : (Desk.opened .info).cache.Coherent := DecoderCache.coherent_empty
  have hleft : ((readings.put "m" (reading 65537) (.opened .info)).run Database.client
      (.new "readings")).1.desk.cache.Coherent := by
    rw [hcache]
    exact coherent_document hc hb
  have hp : (Database.new "readings").present = true := rfl
  obtain ⟨-, -, -, hbad⟩ := get_written (s := readings) rfl unreserved_reading hp hc (fits_reading (by decide)) hb hleft
  obtain ⟨fault, he⟩ := hbad fun h => absurd ((roomy_reading 65537).1 h) (by decide)
  refine ⟨_, hres, ?_⟩
  rintro ⟨restored, hok, -⟩
  rw [hdb, he] at hok
  cases hok

end Store

end Docket
