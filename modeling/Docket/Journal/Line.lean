import Docket.Journal.Event
import Docket.Json.Printer

/-!
# Log lines

An entry becomes one line: an object that begins with the event and its severity
and goes on with the entry's fields in the order of their keys. A field that bears
one of the two leading names gets a name of its own in front.
-/
namespace Docket

inductive Channel where
  | output | errors
  deriving DecidableEq, Repr

structure LogEntry where
  channel : Channel
  severity : Severity
  event : String
  fields : List (String × String)
  deriving DecidableEq, Repr

namespace LogEntry

def reservedKeys : List String := ["event", "severity"]

def writtenKey (key : String) : String :=
  if key ∈ reservedKeys then "field_" ++ key else key

/-- The fields by key; those of one key keep their order. -/
def sortedFields (e : LogEntry) : List (String × String) :=
  e.fields.mergeSort fun a b => decide (a.1 ≤ b.1)

def pairs (e : LogEntry) : List (String × String) :=
  ("event", e.event) :: ("severity", e.severity.name) ::
    e.sortedFields.map fun field => (writtenKey field.1, field.2)

def line (e : LogEntry) : String :=
  (Json.object (e.pairs.map fun pair => (pair.1, .string pair.2))).text ++ "\n"

end LogEntry

/-- Entries in the order in which they were noted. Entries below the threshold
are not kept. -/
structure Journal where
  threshold : Severity
  entries : List LogEntry

namespace Journal

def opened (threshold : Severity) : Journal := ⟨threshold, []⟩

def add (j : Journal) (entry : LogEntry) : Journal :=
  if j.threshold.level ≤ entry.severity.level then { j with entries := j.entries ++ [entry] } else j

def log (j : Journal) (severity : Severity) (event : String) (fields : List (String × String)) : Journal :=
  j.add ⟨.output, severity, event, fields⟩

def logError (j : Journal) (severity : Severity) (event : String) (fields : List (String × String)) : Journal :=
  j.add ⟨.errors, severity, event, fields⟩

/-- Notes an event; failures go to the error channel. -/
def note (j : Journal) (event : Event) (fields : List (String × String)) : Journal :=
  match event.severity with
  | .error => j.logError .error event.name fields
  | severity => j.log severity event.name fields

def lines (j : Journal) (channel : Channel) : List String :=
  (j.entries.filter (·.channel = channel)).map LogEntry.line

def cleared (j : Journal) : Journal :=
  { j with entries := [] }

end Journal

end Docket
