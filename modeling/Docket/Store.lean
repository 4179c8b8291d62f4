import Docket.Commit
import Docket.Query
import Docket.Record.Assemble
import Docket.Removal
import Docket.Settings

/-!
# A store of records

A store keeps the records of one schema in one database. Every operation is a
dialogue: it makes calls of the database, works on a desk, and ends with a result.
-/
namespace Docket

structure Store where
  settings : Settings
  schema : RecordSchema

abbrev Work (α : Type) := Desk → Dialogue (Except StoreError α × Desk)

structure ResultRow where
  id : String
  record : Record

namespace Store

/-- Documents whose identifiers begin like this hold no records. -/
def designMark : String := "_design/"

def newRecord (s : Store) : Record :=
  .fresh s.schema

def newQuery (s : Store) : Query :=
  Query.new.withFields s.schema.fieldNames

def createDatabase (s : Store) : Work Unit := fun desk =>
  .ask .probe fun
    | .error e => .done (.error e, desk)
    | .ok true => .done (.ok (), desk)
    | .ok false =>
        .ask .create fun
          | .error e => .done (.error e, desk)
          | .ok _ => .done (.ok (), desk.note .databaseCreated [("database", s.settings.database)])

def dropDatabase (s : Store) : Work Unit := fun desk =>
  .ask .probe fun
    | .error e => .done (.error e, desk)
    | .ok false => .done (.ok (), desk)
    | .ok true =>
        .ask .drop fun
          | .error e => .done (.error e, desk)
          | .ok _ => .done (.ok (), desk.note .databaseDeleted [("database", s.settings.database)])

def databaseExists : Work Bool := fun desk =>
  .ask .probe fun reply => .done (reply, desk)

/-- Opens a store on settings that can be used, and creates its database. -/
def «open» (settings : Settings) (schema : RecordSchema) : Work Store := fun desk =>
  match settings.check with
  | .error e => .done (.error (.settings e), desk)
  | .ok settings =>
      let store : Store := ⟨settings, schema⟩
      (store.createDatabase desk).bind fun
        | (.error e, desk) => .done (.error e, desk)
        | (.ok (), desk) =>
            .done (.ok store, desk.note .storeInitialized
              [("database", settings.database), ("schema", schema.name),
                ("mapping_file", settings.mappingFile)])

/-- The record of a document. A document that cannot be read is counted and noted. -/
def assemble (s : Store) (id : String) (document : Document) (fields : List String) (desk : Desk) :
    Except StoreError Record × Desk :=
  let assembly := Record.assemble s.schema document fields desk
  match assembly.result with
  | .ok record => (.ok record, assembly.desk)
  | .error e =>
      (.error (.value e),
        (assembly.desk.tick .decodeFailures).note .decodeFailed [("id", id), ("code", e.code)])

/-- The record under an identifier, with the named fields or with all of them. -/
def get (s : Store) (id : String) (fields : List String) : Work (Option Record) := fun desk =>
  .ask (.get id) fun
    | .error e => .done (.error e, desk)
    | .ok none => .done (.ok none, desk.tick .readsMissing)
    | .ok (some document) =>
        match s.assemble id document fields desk with
        | (.error e, desk) => .done (.error e, desk)
        | (.ok record, desk) => .done (.ok (some record), desk.tick .recordsRead)

def put (s : Store) (id : String) (record : Record) (desk : Desk) : Dialogue Committed :=
  record.commit id s.settings.conflictRetries desk

/-- Removes the record under an identifier; false if there was none. -/
def delete (_ : Store) (id : String) (desk : Desk) : Dialogue Removed :=
  remove id desk

/-- Removes the record under a query's key and counts it; without key there is
nothing to remove. -/
def deleteByQuery (s : Store) (query : Query) : Work Nat := fun desk =>
  match query.key with
  | none => .done (.ok 0, desk)
  | some key =>
      (s.delete key desk).bind fun removed =>
        .done (removed.result.map fun deleted => if deleted then 1 else 0, removed.desk)

/-- The records of rows, in order. Rows of design documents and rows without a
document hold none; the first document that cannot be read ends the reading. -/
def assembleRows (s : Store) (fields : List String) :
    List Row → Desk → Except StoreError (List ResultRow) × Desk
  | [], desk => (.ok [], desk)
  | row :: rest, desk =>
      if designMark.toList.isPrefixOf row.id.toList then s.assembleRows fields rest desk
      else match row.document with
        | none => s.assembleRows fields rest desk
        | some document =>
            match s.assemble row.id document fields desk with
            | (.error e, desk) => (.error e, desk)
            | (.ok record, desk) =>
                match s.assembleRows fields rest (desk.tick .recordsRead) with
                | (.error e, desk) => (.error e, desk)
                | (.ok rows, desk) => (.ok (⟨row.id, record⟩ :: rows), desk)

/-- Scans the database for records. The key of the query does not matter, and its
limit counts the rows of the scan, design documents included. -/
def execute (s : Store) (query : Query) : Work (List ResultRow) := fun desk =>
  let scan : Dialogue (Except StoreError (List ResultRow) × Desk) :=
    .ask (.scan query.limit) fun
      | .error e => .done (.error e, desk)
      | .ok rows =>
          match s.assembleRows (query.fields.getD []) rows desk with
          | (.error e, desk) => .done (.error e, desk)
          | (.ok rows, desk) =>
              .done (.ok rows, (desk.tick .queriesExecuted).note .queryExecuted
                [("database", s.settings.database), ("rows", toString rows.length)])
  match query.limit with
  | some limit =>
      if greatestLimit < limit then .done (.error (.settings (.queryLimit limit)), desk) else scan
  | none => scan

/-- The parts of a query that can run on their own: the query itself. -/
def partitions (_ : Store) (query : Query) : List Partition :=
  [⟨query⟩]

def flush : Work Unit := fun desk =>
  .ask .flush fun reply => .done (reply, desk)

/-- Flushes what is pending before the store is given up. -/
def close (s : Store) : Work Unit := fun desk =>
  .ask .flush fun
    | .error e => .done (.error e, desk)
    | .ok _ => .done (.ok (), desk.note .storeClosed [("database", s.settings.database)])

end Store

end Docket
