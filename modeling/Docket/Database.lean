import Docket.Client.Dialogue
import Docket.Digest
import Docket.Text.Hex
import Docket.Text.Utf8

/-!
# A database in memory

A database holds at most one entry for each identifier. An entry knows how often
the identifier was written and under which revision it stands; a deleted entry
keeps both and loses its document. A document may replace a live one only if it
names the current revision, and may follow a deleted one only if it names none
or the one of the deletion. Revisions are the count of writes and a digest of
what was written.
-/
namespace Docket

/-- What stands under an identifier; a deleted entry has no document. -/
structure Entry where
  generation : Nat
  rev : String
  document : Option Document

structure Database where
  name : String
  present : Bool
  entries : Keyed Entry

namespace Database

def missing (name : String) : Database := ⟨name, false, ∅⟩

def new (name : String) : Database := ⟨name, true, ∅⟩

/-- The bytes that are digested for a revision: the identifier, then the names
and texts of the fields, or a mark for a deletion. -/
def digestInput (id : String) : Option Document → List UInt8
  | some document =>
      Text.Utf8.encode id ++
        document.body.flatMap fun e => Text.Utf8.encode e.1 ++ Text.Utf8.encode e.2.text
  | none => Text.Utf8.encode id ++ Text.Utf8.encode "deleted"

/-- The revision of a write: its generation and half a digest. -/
def revision (generation : Nat) (id : String) (document : Option Document) : String :=
  toString generation ++ "-" ++ Text.hexOfBytes ((Digest.sha256 (digestInput id document)).take 16)

def live? (db : Database) (id : String) : Option Document :=
  (db.entries.find? id).bind Entry.document

def documents (db : Database) : List (String × Document) :=
  db.entries.entries.filterMap fun e => e.2.document.map fun document => (e.1, document)

def size (db : Database) : Nat :=
  db.documents.length

/-- The generation that a document naming a revision, or none, may write. -/
def nextGeneration? (entry : Option Entry) (supplied : Option String) : Option Nat :=
  match entry with
  | none => if supplied.isSome then none else some 1
  | some entry =>
      if entry.document.isSome then
        if supplied = some entry.rev then some (entry.generation + 1) else none
      else
        match supplied with
        | none => some (entry.generation + 1)
        | some rev => if rev = entry.rev then some (entry.generation + 1) else none

def put (db : Database) (document : Document) : Except StoreError String × Database :=
  match document.id? with
  | none => (.error (.client .noIdentifier), db)
  | some id =>
      if !db.present then (.error (.databaseNotFound db.name), db)
      else match nextGeneration? (db.entries.find? id) document.rev? with
        | none => (.error (.conflict id), db)
        | some generation =>
            let rev := revision generation id (some document)
            let stored := document.insert Document.revField (.string rev)
            (.ok rev, { db with entries := db.entries.insert id ⟨generation, rev, some stored⟩ })

/-- Deletes the document under an identifier, if the revision is the current one. -/
def delete (db : Database) (id rev : String) : Except StoreError String × Database :=
  if !db.present then (.error (.databaseNotFound db.name), db)
  else match db.entries.find? id with
    | none => (.error (.notFound id), db)
    | some entry =>
        if entry.document.isNone then (.error (.notFound id), db)
        else if entry.rev ≠ rev then (.error (.conflict id), db)
        else
          let generation := entry.generation + 1
          let rev := revision generation id none
          (.ok rev, { db with entries := db.entries.insert id ⟨generation, rev, none⟩ })

def rows (db : Database) (limit : Option Nat) : List Row :=
  let rows := db.documents.map fun e => (⟨e.1, some e.2⟩ : Row)
  match limit with
  | some limit => rows.take limit
  | none => rows

/-- Refuses what needs a database that exists. -/
def whenPresent {α : Type} (db : Database) (value : α) : Except StoreError α :=
  if db.present then .ok value else .error (.databaseNotFound db.name)

def answer (db : Database) : (call : Call) → call.Reply × Database
  | .get id => (db.whenPresent (db.live? id), db)
  | .put document => db.put document
  | .delete id rev => db.delete id rev
  | .scan limit => (db.whenPresent (db.rows limit), db)
  | .probe => (.ok db.present, db)
  | .create =>
      if db.present then (.error (.client (.databaseExists db.name)), db)
      else (.ok (), { db with present := true })
  | .drop =>
      if db.present then (.ok (), missing db.name)
      else (.error (.databaseNotFound db.name), db)
  | .flush => (.ok (), db)

def client : Client Database := ⟨answer⟩

end Database

end Docket
