import Docket.Database
import Docket.Text.Blank

/-!
# Faults by script

A script stands in front of a database and spoils chosen calls: it answers with an
error instead of passing the call on, or tampers with the answer. Faults are tried
in the order in which they were added; each lets some calls of its kind pass and
then spoils a number of them.
-/
namespace Docket

/-- The kinds of calls, by which faults choose theirs. -/
inductive CallKind where
  | get | put | delete | scan | probe | create | drop | flush
  deriving DecidableEq, Repr

namespace CallKind

def all : List CallKind := [get, put, delete, scan, probe, create, drop, flush]

def name : CallKind → String
  | get => "get"
  | put => "put"
  | delete => "delete"
  | scan => "all_docs"
  | probe => "exists"
  | create => "create"
  | drop => "drop"
  | flush => "flush"

end CallKind

namespace Call

def kind : Call → CallKind
  | get _ => .get
  | put _ => .put
  | delete _ _ => .delete
  | scan _ => .scan
  | probe => .probe
  | create => .create
  | drop => .drop
  | flush => .flush

/-- What the call is about: an identifier or a limit; empty if it is about neither. -/
def subject : Call → String
  | get id => id
  | put document => (Document.id? document).getD ""
  | delete id _ => id
  | scan limit => (limit.map fun n => toString n).getD ""
  | _ => ""

/-- The kind of the call and what it is about, blanks at the end left out. -/
def label (call : Call) : String :=
  Text.trimEnd (call.kind.name ++ " " ++ call.subject)

end Call

inductive Spoil where
  /-- Answered with an error about the call's subject. -/
  | conflict | notFound | databaseNotFound
  /-- Answered with a failure of the database itself. -/
  | failure
  /-- A document is handed out without its revision. -/
  | stripRevision
  /-- A document is read, and then reported as absent. -/
  | missing
  /-- A document is deleted, and then reported as not found. -/
  | vanish
  /-- A document is deleted, and the deletion has no revision. -/
  | silentDelete
  /-- Every second row of a scan comes without its document. -/
  | bareRows
  deriving DecidableEq, Repr

structure ScriptedFault where
  target : CallKind
  spoil : Spoil
  /-- How many calls it lets pass. -/
  skip : Nat
  /-- How many calls it spoils after that. -/
  times : Nat
  deriving DecidableEq, Repr

/-- A database behind a script, with the calls that reached the script. -/
structure Scripted where
  database : Database
  faults : List ScriptedFault
  calls : List String
  lastPut : Option Document

namespace Scripted

/-- Looks for the fault that spoils a call of a kind, and counts it down. -/
def strike (kind : CallKind) : List ScriptedFault → Option Spoil × List ScriptedFault
  | [] => (none, [])
  | fault :: rest =>
      let pass (fault : ScriptedFault) :=
        let (spoil, rest) := strike kind rest
        (spoil, fault :: rest)
      if fault.target ≠ kind then pass fault
      else if 0 < fault.skip then pass { fault with skip := fault.skip - 1 }
      else if 0 < fault.times then (some fault.spoil, { fault with times := fault.times - 1 } :: rest)
      else pass fault

def bare : List Row → List Row
  | [] => []
  | [row] => [{ row with document := none }]
  | row :: kept :: rest => { row with document := none } :: kept :: bare rest

/-- Answers a spoiled call. A spoil that makes no sense for the call lets it pass. -/
def spoiled (db : Database) (spoil : Spoil) (call : Call) : call.Reply × Database :=
  match spoil, call with
  | .conflict, call => (.error (.conflict call.subject), db)
  | .notFound, call => (.error (.notFound call.subject), db)
  | .databaseNotFound, call => (.error (.databaseNotFound call.subject), db)
  | .failure, call => (.error (.client (.failed ("injected " ++ call.kind.name))), db)
  | .stripRevision, .get id =>
      match db.answer (.get id) with
      | (.ok (some document), db) => (.ok (some (Keyed.erase document Document.revField)), db)
      | reply => reply
  | .missing, .get id =>
      match db.answer (.get id) with
      | (.ok _, db) => (.ok none, db)
      | reply => reply
  | .vanish, .delete id rev =>
      match db.answer (.delete id rev) with
      | (.ok _, db) => (.error (.notFound id), db)
      | reply => reply
  | .silentDelete, .delete id rev =>
      match db.answer (.delete id rev) with
      | (.ok _, db) => (.ok "", db)
      | reply => reply
  | .bareRows, .scan limit =>
      match db.answer (.scan limit) with
      | (.ok rows, db) => (.ok (bare rows), db)
      | reply => reply
  | _, call => db.answer call

/-- Answers a call by the script, or by the database if no fault strikes. -/
def answer (s : Scripted) (call : Call) : call.Reply × Scripted :=
  let (spoil, faults) := strike call.kind s.faults
  let lastPut := match call with
    | .put document => some document
    | _ => s.lastPut
  let (reply, database) := match spoil with
    | some spoil => spoiled s.database spoil call
    | none => s.database.answer call
  (reply, ⟨database, faults, s.calls ++ [call.label], lastPut⟩)

def client : Client Scripted := ⟨answer⟩

end Scripted

end Docket
