/-!
# Events and their severities
-/
namespace Docket

inductive Severity where
  | trace | info | warn | error
  deriving DecidableEq, Repr

namespace Severity

def all : List Severity := [trace, info, warn, error]

def name : Severity → String
  | trace => "TRACE"
  | info => "INFO"
  | warn => "WARN"
  | error => "ERROR"

/-- The place in the order of severities, the least first. -/
def level : Severity → Nat
  | trace => 0
  | info => 1
  | warn => 2
  | error => 3

end Severity

inductive Event where
  | storeInitialized | databaseCreated | databaseDeleted | storeClosed
  | recordAssembled | decodeFailed | decoderBuilt | decoderRaceLost | queryExecuted
  | putSkipped | documentWritten | writeConflict | staleDocumentCleared | conflictUnrecovered
  | documentDeleted | deleteMissing
  deriving DecidableEq, Repr

namespace Event

def all : List Event :=
  [storeInitialized, databaseCreated, databaseDeleted, storeClosed,
   recordAssembled, decodeFailed, decoderBuilt, decoderRaceLost, queryExecuted,
   putSkipped, documentWritten, writeConflict, staleDocumentCleared, conflictUnrecovered,
   documentDeleted, deleteMissing]

def name : Event → String
  | storeInitialized => "STORE_INITIALIZED"
  | databaseCreated => "DATABASE_CREATED"
  | databaseDeleted => "DATABASE_DELETED"
  | storeClosed => "STORE_CLOSED"
  | recordAssembled => "RECORD_ASSEMBLED"
  | decodeFailed => "DECODE_FAILED"
  | decoderBuilt => "DECODER_BUILT"
  | decoderRaceLost => "DECODER_RACE_LOST"
  | queryExecuted => "QUERY_EXECUTED"
  | putSkipped => "PUT_SKIPPED"
  | documentWritten => "DOCUMENT_WRITTEN"
  | writeConflict => "WRITE_CONFLICT"
  | staleDocumentCleared => "STALE_DOCUMENT_CLEARED"
  | conflictUnrecovered => "CONFLICT_UNRECOVERED"
  | documentDeleted => "DOCUMENT_DELETED"
  | deleteMissing => "DELETE_MISSING"

def isFailure : Event → Bool
  | decodeFailed | conflictUnrecovered => true
  | _ => false

/-- Whether the event is about one record or decoder rather than a whole operation. -/
def isDetail : Event → Bool
  | recordAssembled | decoderBuilt | decoderRaceLost | documentWritten | documentDeleted => true
  | _ => false

/-- Failures are errors, lost races and vanished documents warnings, details
traces, and everything else is information. -/
def severity (e : Event) : Severity :=
  if e.isFailure then .error
  else if e = writeConflict ∨ e = deleteMissing then .warn
  else if e.isDetail then .trace
  else .info

end Event

end Docket
