import Docket.ValueError

/-!
# Why a store operation fails
-/
namespace Docket

inductive SettingsFault where
  | missingProperty (name : String)
  | badCount (name value : String)
  | emptyDatabase
  | emptyUrl
  /-- The file cannot be read as text. -/
  | unreadable (path reason : String)
  /-- The file holds no settings. -/
  | unsettled (path : String)
  | queryLimit (limit : Nat)
  deriving DecidableEq, Repr

/-- The most rows a query may ask for. -/
def greatestLimit : Nat := 4294967295

def SettingsFault.message : SettingsFault → String
  | .missingProperty name => s!"missing property '{name}'"
  | .badCount name value => s!"property '{name}' is not a count: {value}"
  | .emptyDatabase => "database name is empty"
  | .emptyUrl => "url is empty"
  | .unreadable path reason => s!"failed to read '{path}': {reason}"
  | .unsettled path => s!"invalid config '{path}'"
  | .queryLimit limit => s!"query limit {limit} exceeds {greatestLimit}"

inductive ClientFault where
  /-- A document to be stored has no identifier. -/
  | noIdentifier
  | databaseExists (name : String)
  /-- A stored document has no revision to be deleted at. -/
  | noRevision (id : String)
  /-- Any other failure, in the words of the database. -/
  | failed (reason : String)
  deriving DecidableEq, Repr

def ClientFault.message : ClientFault → String
  | .noIdentifier => "document has no string _id"
  | .databaseExists name => s!"database '{name}' already exists"
  | .noRevision id => s!"stored document '{id}' has no revision"
  | .failed reason => reason

inductive StoreError where
  /-- The revision handed in is not the current one. -/
  | conflict (id : String)
  | notFound (id : String)
  | databaseNotFound (name : String)
  | settings (fault : SettingsFault)
  | client (fault : ClientFault)
  | value (error : ValueError)
  deriving DecidableEq, Repr

namespace StoreError

def message : StoreError → String
  | conflict id => s!"Document update conflict: {id}"
  | notFound id => s!"Document not found: {id}"
  | databaseNotFound name => s!"Database not found: {name}"
  | settings fault => "Invalid configuration: " ++ fault.message
  | client fault => "Document client error: " ++ fault.message
  | value error => error.message

def code : StoreError → String
  | conflict _ => "COUCHMAP_STORE_CONFLICT"
  | notFound _ => "COUCHMAP_STORE_NOT_FOUND"
  | databaseNotFound _ => "COUCHMAP_STORE_DATABASE_NOT_FOUND"
  | settings _ => "COUCHMAP_STORE_CONFIG"
  | client _ => "COUCHMAP_STORE_CLIENT"
  | value error => error.code

def isConflict : StoreError → Bool
  | conflict _ => true
  | _ => false

def isNotFound : StoreError → Bool
  | notFound _ => true
  | _ => false

end StoreError

end Docket
