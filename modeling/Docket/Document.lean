import Docket.Json.Printer

/-!
# Stored documents

A document is a set of named values. Names that begin with an underscore belong
to the database; two of them carry the document's identifier and the revision
under which it is stored.
-/
namespace Docket

abbrev Document := Keyed Json

namespace Document

def idField : String := "_id"

def revField : String := "_rev"

def id? (d : Document) : Option String :=
  (d.find? idField).bind Json.string?

def rev? (d : Document) : Option String :=
  (d.find? revField).bind Json.string?

/-- Whether a field name belongs to the database. -/
def isReserved (name : String) : Bool :=
  name.toList.head? = some '_'

/-- The fields that do not belong to the database. -/
def body (d : Document) : List (String × Json) :=
  d.entries.filter fun e => !isReserved e.1

def toJson (d : Document) : Json :=
  .object d.entries

end Document

end Docket
