/-!
# Queries

A query names a key, a choice of fields and a limit, each of them optional. A scan
uses the fields and the limit, a removal the key.
-/
namespace Docket

structure Query where
  key : Option String
  /-- The fields to be read; none means every field. -/
  fields : Option (List String)
  limit : Option Nat
  deriving DecidableEq, Repr

namespace Query

def new : Query := ⟨none, none, none⟩

def withKey (q : Query) (key : String) : Query := { q with key := some key }

def withFields (q : Query) (fields : List String) : Query := { q with fields := some fields }

def withLimit (q : Query) (limit : Nat) : Query := { q with limit := some limit }

end Query

/-- A part of a query that can run on its own. -/
structure Partition where
  query : Query
  deriving DecidableEq, Repr

end Docket
