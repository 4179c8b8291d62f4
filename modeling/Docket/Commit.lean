import Docket.Client.Dialogue
import Docket.Field

/-!
# Committing a record

A commit writes the values that were put into a record, once. When the database
refuses the write because the document was changed in the meantime, the commit
fetches the stored document, deletes it at its revision and writes again, with
the stored fields that the record did not touch carried over. The number of such
recoveries is bounded; when none is left, the conflict is the caller's.
-/
namespace Docket

inductive CommitOutcome where
  | skipped
  | written (rev : String)
  deriving DecidableEq, Repr

structure Committed where
  result : Except StoreError CommitOutcome
  record : Record
  desk : Desk

namespace Commit

/-- Adds the stored forms of marked values that are not null. -/
def addFields (record : Record) : List (Field × Nat) → Document → Desk → Except ValueError Document × Desk
  | [], document, desk => (.ok document, desk)
  | (field, position) :: rest, document, desk =>
      let value := (record.get? position).getD .null
      if record.isDirtyAt position ∧ !value.isNull then
        match Field.encode field.name field.schema value desk with
        | (.error e, desk) => (.error e, desk)
        | (.ok stored, desk) => addFields record rest (document.insert field.name stored) desk
      else addFields record rest document desk

/-- The document of a record: its identifier and the marked values. -/
def document (id : String) (record : Record) (desk : Desk) : Except ValueError Document × Desk :=
  addFields record record.schema.fields.zipIdx
    (Keyed.empty.insert Document.idField (.string id)) desk

/-- Whether a stored field is kept when a record is written over its document:
it belongs neither to the database nor to the fields written or marked. -/
def carries (record : Record) (outgoing : Document) (name : String) : Bool :=
  !Document.isReserved name && !outgoing.contains name &&
    match record.schema.position? name with
    | some position => !record.isDirtyAt position
    | none => true

/-- The document with the stored fields that the record did not touch. -/
def carryOver (record : Record) (document stale : Document) : Document :=
  stale.entries.foldl
    (fun outgoing e => if carries record outgoing e.1 then outgoing.insert e.1 e.2 else outgoing)
    document

/-- Fetches the stored document and deletes it at its revision. Nothing has to be
deleted if it is gone, and a deletion that comes too late is as good. -/
def clearStale (id : String) (desk : Desk) : Dialogue (Except StoreError (Option Document) × Desk) :=
  .ask (.get id) fun
    | .error e => .done (.error e, desk)
    | .ok none => .done (.ok none, desk)
    | .ok (some stale) =>
        match Document.rev? stale with
        | none => .done (.error (.client (.noRevision id)), desk)
        | some rev =>
            .ask (.delete id rev) fun
              | .ok _ => .done (.ok (some stale), desk.note .staleDocumentCleared [("id", id), ("rev", rev)])
              | .error e => if e.isNotFound then .done (.ok (some stale), desk) else .done (.error e, desk)

/-- Writes the outgoing document, with a number of recoveries left. Each recovery
starts from the record's own document; if the stored one is gone, the last
attempt is repeated as it was. -/
def attempt (id : String) (built : Document) (record : Record) (recovered : Bool) :
    Nat → Document → Desk → Dialogue Committed
  | left, outgoing, desk =>
      .ask (.put outgoing) fun
        | .ok rev =>
            let desk := desk.tick .writes
            let desk := if recovered then desk.tick .conflictsRecovered else desk
            .done ⟨.ok (.written rev), record.markClean,
              desk.note .documentWritten [("id", id), ("rev", rev)]⟩
        | .error e =>
            if e.isConflict then
              let desk := desk.tick .conflicts
              match left with
              | 0 => .done ⟨.error e, record, desk.note .conflictUnrecovered [("id", id)]⟩
              | left + 1 =>
                  (clearStale id (desk.note .writeConflict [("id", id)])).bind fun
                    | (.error e, desk) => .done ⟨.error e, record, desk⟩
                    | (.ok none, desk) => attempt id built record true left outgoing desk
                    | (.ok (some stale), desk) =>
                        attempt id built record true left (carryOver record built stale) desk
            else .done ⟨.error e, record, desk⟩

end Commit

/-- Commits a record under an identifier, with at most `retries` recoveries. -/
def Record.commit (record : Record) (id : String) (retries : Nat) (desk : Desk) : Dialogue Committed :=
  if !record.needsWrite then
    .done ⟨.ok .skipped, record, (desk.tick .putsSkipped).note .putSkipped [("id", id)]⟩
  else
    match Commit.document id record desk with
    | (.error e, desk) => .done ⟨.error (.value e), record, desk⟩
    | (.ok built, desk) => Commit.attempt id built record false retries built desk

end Docket
