import Docket.Document
import Docket.Field

/-!
# Records from documents
-/
namespace Docket

namespace Record

/-- What reading a document leaves: a record or an error, and the desk. -/
structure Assembly where
  result : Except ValueError Record
  desk : Desk

/-- Reads the named fields one after the other into a record. The first that is
no field of the schema or cannot be read ends the reading. -/
def readFields (document : Document) (record : Record) (desk : Desk) : List String → Assembly
  | [] => ⟨.ok record, desk⟩
  | name :: rest =>
      match record.schema.position? name, record.schema.field? name with
      | some position, some field =>
          let outcome := Field.decode field.name position field.schema (document.find? field.name) record desk
          match outcome.result with
          | .error e => ⟨.error e, outcome.desk⟩
          | .ok value => readFields document (outcome.record.put position value) outcome.desk rest
      | _, _ => ⟨.error (.unknownField name), desk⟩

/-- The clean record of a document with the named fields; no name at all means
every field. Fields that were not named stay null. -/
def assemble (schema : RecordSchema) (document : Document) (names : List String) (desk : Desk) : Assembly :=
  let names := if names.isEmpty then schema.fieldNames else names
  let assembly := readFields document (fresh schema) desk names
  match assembly.result with
  | .error _ => assembly
  | .ok record =>
      let desk := match document.id? with
        | some id => assembly.desk.note .recordAssembled [("id", id)]
        | none => assembly.desk
      ⟨.ok record.markClean, desk⟩

end Record

end Docket
