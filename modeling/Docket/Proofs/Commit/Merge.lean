import Docket.Proofs.Commit.Document

/-!
# What a rewritten document holds

Fields carried over from a fetched document fill the places that the built
document leaves free: those of fields that are neither marked nor the database's.
Written with its revision, the result is the merge of the record and the fetched
document.
-/
namespace Docket.Commit

variable {id : String} {desk : Desk} {record : Record} {built outgoing stale : Document} {name : String}

theorem carries_eq (record : Record) (outgoing : Document) (name : String) :
    carries record outgoing name =
      (!outgoing.contains name && !(Document.isReserved name || marks record name)) := by
  unfold carries marks
  cases record.schema.position? name with
  | none => simp [Bool.and_comm]
  | some position => cases Document.isReserved name <;> cases outgoing.contains name <;> rfl

theorem find?_foldl_carries (entries : List (String × Json)) (outgoing : Document) (name : String) :
    (entries.foldl (fun outgoing e => if carries record outgoing e.1 then outgoing.insert e.1 e.2 else outgoing)
      outgoing).find? name =
      (outgoing.find? name).or
        (if Document.isReserved name || marks record name then none else Entries.find? name entries) := by
  induction entries generalizing outgoing with
  | nil => simp [Entries.find?]
  | cons e entries ih =>
      obtain ⟨key, value⟩ := e
      rw [List.foldl_cons, ih]
      -- a field that is carried from `key` hides later entries of that name
      by_cases hk : name = key
      · subst hk
        simp only [carries_eq, Keyed.contains, Entries.find?, if_true]
        cases ho : outgoing.find? name with
        | some held => simp [ho]
        | none => by_cases hm : (Document.isReserved name || marks record name) = true <;> simp [hm, ho]
      · have hi : (if carries record outgoing key then outgoing.insert key value else outgoing).find? name =
            outgoing.find? name := by
          split
          · exact Keyed.find?_insert_of_ne _ hk _
          · rfl
        simp only [hi, Entries.find?, hk, if_false]

/-- A carried document holds what it held, and in places left free what was fetched. -/
theorem find?_carryOver (record : Record) (outgoing stale : Document) (name : String) :
    (carryOver record outgoing stale).find? name =
      (outgoing.find? name).or
        (if Document.isReserved name || marks record name then none else stale.find? name) :=
  find?_foldl_carries stale.entries outgoing name

theorem find?_carryOver_of_marks (h : marks record name = true) :
    (carryOver record outgoing stale).find? name = outgoing.find? name := by
  rw [find?_carryOver, h, Bool.or_true, if_pos rfl, Option.or_none]

theorem find?_carryOver_of_isReserved (h : Document.isReserved name = true) :
    (carryOver record outgoing stale).find? name = outgoing.find? name := by
  rw [find?_carryOver, h, Bool.true_or, if_pos rfl, Option.or_none]

/-- The document that replaces what stood under the identifier before. -/
def merged (record : Record) (built : Document) : Option Document → Document
  | none => built
  | some stale => carryOver record built stale

theorem find?_merged_of_marks {before : Option Document} (h : marks record name = true) :
    (merged record built before).find? name = built.find? name := by
  cases before with
  | none => rfl
  | some stale => exact find?_carryOver_of_marks h

theorem find?_merged_of_isReserved {before : Option Document} (h : Document.isReserved name = true) :
    (merged record built before).find? name = built.find? name := by
  cases before with
  | none => rfl
  | some stale => exact find?_carryOver_of_isReserved h

theorem marks_of_isReserved (hu : Unreserved record.schema) (h : Document.isReserved name = true) :
    marks record name = false := by
  unfold marks
  split
  · rename_i position hp
    obtain ⟨field, hf, rfl⟩ := RecordSchema.position?_eq_some_iff.1 hp
    rw [hu field (List.mem_of_getElem? hf)] at h
    cases h
  · rfl

/-- A document that a commit may put: it names its identifier and no revision. -/
structure Addressed (id : String) (document : Document) : Prop where
  id : document.id? = some id
  rev : document.rev? = none

theorem Builds.addressed (hu : Unreserved record.schema) (h : Builds id desk record built) :
    Addressed id built where
  id := by rw [Document.id?, h.id]; rfl
  rev := by
    rw [Document.rev?, h.other Document.revField (marks_of_isReserved hu (by decide)) (by decide)]
    rfl

theorem Addressed.merged (h : Addressed id built) (record : Record) (before : Option Document) :
    Addressed id (merged record built before) where
  id := by rw [Document.id?, find?_merged_of_isReserved (by decide)]; exact h.id
  rev := by rw [Document.rev?, find?_merged_of_isReserved (by decide)]; exact h.rev

/-- The document stands under the identifier and revision, shows the record, keeps
every field of the document before it that the record was not marked with, and
holds nothing else. -/
structure Merges (id rev : String) (desk : Desk) (record : Record) (before : Option Document)
    (after : Document) : Prop extends Shows desk record after where
  id : after.find? Document.idField = some (.string id)
  rev : after.find? Document.revField = some (.string rev)
  kept : ∀ name, Document.isReserved name = false → marks record name = false →
    after.find? name = before.bind fun stale => stale.find? name
  reserved : ∀ name, Document.isReserved name = true → name ≠ Document.idField → name ≠ Document.revField →
    after.find? name = none

theorem find?_merged_of_unmarked (h : Builds id desk record built) {before : Option Document}
    (hr : Document.isReserved name = false) (hm : marks record name = false) :
    (merged record built before).find? name = before.bind fun stale => stale.find? name := by
  have hn : name ≠ Document.idField := fun heq => by
    rw [heq] at hr
    exact absurd hr (by decide)
  have hb := h.other name hm hn
  cases before with
  | none => exact hb
  | some stale =>
      rw [merged, find?_carryOver, hb, hr, hm]
      rfl

/-- The merged document, stored under its revision, is the merge. -/
theorem merges_stored (rev : String) (hu : Unreserved record.schema) (h : Builds id desk record built)
    (before : Option Document) :
    Merges id rev desk record before
      ((merged record built before).insert Document.revField (.string rev)) := by
  have hs : ∀ name, name ≠ Document.revField →
      ((merged record built before).insert Document.revField (.string rev)).find? name =
        (merged record built before).find? name := fun name hn => Keyed.find?_insert_of_ne _ hn _
  have hm : ∀ name, marks record name = true → name ≠ Document.revField := by
    intro name hm heq
    rw [heq, marks_of_isReserved hu (by decide)] at hm
    cases hm
  refine { toShows := h.toShows.congr ?_, id := ?_, rev := ?_, kept := ?_, reserved := ?_ }
  · intro name hn
    rw [hs name (hm name hn), find?_merged_of_marks hn]
  · rw [hs _ (by decide), find?_merged_of_isReserved (by decide)]
    exact h.id
  · exact Keyed.find?_insert_self _ _ _
  · intro name hr hn
    have hne : name ≠ Document.revField := fun heq => by
      rw [heq] at hr
      exact absurd hr (by decide)
    rw [hs name hne, find?_merged_of_unmarked h hr hn]
  · intro name hr hi hn
    rw [hs name hn, find?_merged_of_isReserved hr]
    exact h.other name (marks_of_isReserved hu hr) hi

end Docket.Commit
