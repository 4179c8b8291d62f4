import Docket.Json.Reader
import Docket.Json.Printer
import Docket.Numeral.Reader
import Docket.StoreError
import Docket.Text.Utf8

/-!
# Settings of a store

Settings say where the database is and how many recoveries a commit may try. They
come from a set of properties or from a file that holds one object; only the name
of the database has no default.
-/
namespace Docket

structure Settings where
  url : String
  database : String
  mappingFile : String
  conflictRetries : Nat
  deriving DecidableEq, Repr

namespace Settings

def defaultUrl : String := "http://localhost:5984"

def defaultMappingFile : String := "couchmap-mapping.xml"

def defaultRetries : Nat := 1

/-- A count of recoveries is a number of 32 bits. -/
def greatestRetries : Nat := 4294967295

def new (database : String) : Settings :=
  ⟨defaultUrl, database, defaultMappingFile, defaultRetries⟩

def check (s : Settings) : Except SettingsFault Settings :=
  if s.database.isEmpty then .error .emptyDatabase
  else if s.url.isEmpty then .error .emptyUrl
  else .ok s

def ofProperties (properties : List (String × String)) : Except SettingsFault Settings := do
  let property (name : String) := Entries.find? name properties
  let database ← match property "database" with
    | some name => if name.isEmpty then .error (.missingProperty "database") else .ok name
    | none => .error (.missingProperty "database")
  let retries ← match property "conflict.retries" with
    | none => .ok defaultRetries
    | some text =>
        match Numeral.integer? 0 greatestRetries text with
        | some n => .ok n.toNat
        | none => .error (.badCount "conflict.retries" text)
  check ⟨(property "url").getD defaultUrl, database, (property "mapping.file").getD defaultMappingFile, retries⟩

def toJson (s : Settings) : Json :=
  .object [("url", .string s.url), ("database", .string s.database),
    ("mapping_file", .string s.mappingFile), ("conflict_retries", .ofNat s.conflictRetries)]

structure Draft where
  url : Option String := none
  database : Option String := none
  mappingFile : Option String := none
  conflictRetries : Option Nat := none

def Draft.empty : Draft := {}

def Draft.finish (d : Draft) : Option Settings :=
  d.database.map fun database =>
    ⟨d.url.getD defaultUrl, database, d.mappingFile.getD defaultMappingFile,
      d.conflictRetries.getD defaultRetries⟩

open Json (skipBlank takeString skipValue Literal)

def takeText (text : List Char) : Option (String × List Char) :=
  match skipBlank text with
  | '"' :: rest => takeString [] rest
  | _ => none

/-- Reads a count: an integer literal of 32 bits. -/
def takeCount (text : List Char) : Option (Nat × List Char) :=
  match Literal.take (skipBlank text) with
  | some (literal, rest) =>
      match literal.number? with
      | some (.integer (.ofNat n)) => if n ≤ greatestRetries then some (n, rest) else none
      | _ => none
  | none => none

/-- Reads the value of a key. A known key may be given once, an unknown one is
passed over. -/
def Draft.takeField (d : Draft) (key : String) (text : List Char) : Option (Draft × List Char) :=
  match key with
  | "url" =>
      if d.url.isSome then none
      else (takeText text).map fun (value, rest) => ({ d with url := some value }, rest)
  | "database" =>
      if d.database.isSome then none
      else (takeText text).map fun (value, rest) => ({ d with database := some value }, rest)
  | "mapping_file" =>
      if d.mappingFile.isSome then none
      else (takeText text).map fun (value, rest) => ({ d with mappingFile := some value }, rest)
  | "conflict_retries" =>
      if d.conflictRetries.isSome then none
      else (takeCount text).map fun (value, rest) => ({ d with conflictRetries := some value }, rest)
  | _ => (skipValue (2 * text.length + 1) text).map fun rest => (d, rest)

def takeFields : Nat → Draft → List Char → Option (Draft × List Char)
  | 0, _, _ => none
  | fuel + 1, draft, text =>
      match takeText text with
      | none => none
      | some (key, rest) =>
          match skipBlank rest with
          | ':' :: rest =>
              match draft.takeField key rest with
              | none => none
              | some (draft, rest) =>
                  match skipBlank rest with
                  | ',' :: rest => takeFields fuel draft rest
                  | '\x7d' :: rest => some (draft, rest)
                  | _ => none
          | _ => none

/-- Reads values in the order in which settings are written, up to the closing
bracket; later ones may be left out. -/
def takeItems (draft : Draft) : List String → List Char → Option (Draft × List Char)
  | [], _ => none
  | key :: keys, text =>
      match draft.takeField key text with
      | none => none
      | some (draft, rest) =>
          match skipBlank rest with
          | ',' :: rest => takeItems draft keys rest
          | ']' :: rest => some (draft, rest)
          | _ => none

/-- Reads a whole text: an object, or a list of the same values. -/
def read? (text : String) : Option Settings :=
  let taken := match skipBlank text.toList with
    | '\x7b' :: rest =>
        match skipBlank rest with
        | '\x7d' :: rest => some (Draft.empty, rest)
        | rest => takeFields rest.length .empty rest
    | '[' :: rest =>
        match skipBlank rest with
        | ']' :: rest => some (Draft.empty, rest)
        | rest => takeItems .empty ["url", "database", "mapping_file", "conflict_retries"] rest
    | _ => none
  match taken with
  | some (draft, rest) => if (skipBlank rest).isEmpty then draft.finish else none
  | none => none

/-- The settings in a file, given its path and its bytes if there is such a file. -/
def ofFile (path : String) (content : Option (List UInt8)) : Except SettingsFault Settings :=
  match content with
  | none => .error (.unreadable path "No such file or directory (os error 2)")
  | some bytes =>
      match Text.Utf8.decode bytes with
      | .error _ => .error (.unreadable path "stream did not contain valid UTF-8")
      | .ok text =>
          match read? text with
          | none => .error (.unsettled path)
          | some settings => settings.check

end Settings

end Docket
