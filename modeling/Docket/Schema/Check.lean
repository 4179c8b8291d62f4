import Docket.Schema.Basic

/-!
# Structural rules of schemas

A union has two branches or more, at most one of them null and none a union; an
enumeration declares a symbol and none twice; a record names no field twice. A
`RecordSchema` is a list of fields that passed these rules; schemas nested in a
record are judged when that record is made, so `Schema.check` does not enter
records again.
-/
namespace Docket

inductive SchemaError where
  | unionArity (branches : Nat)
  | repeatedNull
  | nestedUnion
  | emptyEnum (name : String)
  | repeatedSymbol (name symbol : String)
  | repeatedField (record field : String)
  deriving DecidableEq, Repr

namespace SchemaError

def message : SchemaError → String
  | unionArity n => s!"Union must declare at least 2 branches, found {n}"
  | repeatedNull => "Union declares more than one null branch"
  | nestedUnion => "Union may not directly contain another union"
  | emptyEnum name => s!"Enum '{name}' declares no symbols"
  | repeatedSymbol name symbol => s!"Enum '{name}' declares symbol '{symbol}' twice"
  | repeatedField record field => s!"Record '{record}' declares field '{field}' twice"

def code : SchemaError → String
  | unionArity _ => "COUCHMAP_SCHEMA_UNION_ARITY"
  | repeatedNull => "COUCHMAP_SCHEMA_UNION_NULLS"
  | nestedUnion => "COUCHMAP_SCHEMA_NESTED_UNION"
  | emptyEnum _ => "COUCHMAP_SCHEMA_EMPTY_ENUM"
  | repeatedSymbol _ _ => "COUCHMAP_SCHEMA_DUPLICATE_SYMBOL"
  | repeatedField _ _ => "COUCHMAP_SCHEMA_DUPLICATE_FIELD"

end SchemaError

namespace Schema

/-- Refuses the first symbol that was seen before. -/
def checkSymbols (name : String) (seen : List String) : List String → Except SchemaError Unit
  | [] => .ok ()
  | symbol :: rest =>
      if symbol ∈ seen then .error (.repeatedSymbol name symbol)
      else checkSymbols name (symbol :: seen) rest

mutual

/-- The rules of unions and enumerations, outside of records. -/
def check : Schema → Except SchemaError Unit
  | union branches =>
      if branches.length < 2 then .error (.unionArity branches.length)
      else if 1 < branches.countP (·.kind = .null) then .error .repeatedNull
      else checkBranches branches
  | enum name symbols =>
      if symbols.isEmpty then .error (.emptyEnum name) else checkSymbols name [] symbols
  | array items => items.check
  | map values => values.check
  | _ => .ok ()

def checkBranches : List Schema → Except SchemaError Unit
  | [] => .ok ()
  | branch :: rest =>
      if branch.kind = .union then .error .nestedUnion
      else match branch.check with
        | .error e => .error e
        | .ok () => checkBranches rest

end

/-- The rules of a record: every field's schema, then its name. -/
def checkFields (record : String) (seen : List String) : List Field → Except SchemaError Unit
  | [] => .ok ()
  | field :: rest =>
      match field.schema.check with
      | .error e => .error e
      | .ok () =>
          if field.name ∈ seen then .error (.repeatedField record field.name)
          else checkFields record (field.name :: seen) rest

end Schema

structure RecordSchema where
  name : String
  fields : List Field
  checked : Schema.checkFields name [] fields = .ok ()

namespace RecordSchema

/-- A record schema of the fields, unless they break a rule. -/
def ofFields (name : String) (fields : List Field) : Except SchemaError RecordSchema :=
  match checked : Schema.checkFields name [] fields with
  | .ok () => .ok ⟨name, fields, checked⟩
  | .error e => .error e

/-- The schema as it stands inside other schemas. -/
def toSchema (r : RecordSchema) : Schema :=
  .record r.name r.fields

def size (r : RecordSchema) : Nat :=
  r.fields.length

def fieldNames (r : RecordSchema) : List String :=
  r.fields.map Field.name

def position? (r : RecordSchema) (name : String) : Option Nat :=
  r.fields.findIdx? (·.name = name)

def field? (r : RecordSchema) (name : String) : Option Field :=
  r.fields.find? (·.name = name)

/-- Equality by name and fields, defaults included. -/
def same (r s : RecordSchema) : Bool :=
  r.name == s.name && Schema.sameFields r.fields s.fields

end RecordSchema

end Docket
