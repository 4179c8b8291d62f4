import Docket.Schema.Basic

/-!
# Defaults of fields

Defaults say nothing about how a value is laid out, so schemas that differ in
their defaults alone are of one layout. `mapDefaults` changes the default of every
field at every depth; the two changes of interest are dropping all of them and
dropping those that are null.
-/
namespace Docket.Schema

mutual

/-- The schema with every field's default changed, at every depth. -/
def mapDefaults (change : Option Json → Option Json) : Schema → Schema
  | array items => array (items.mapDefaults change)
  | map values => map (values.mapDefaults change)
  | record name fields => record name (mapFieldDefaults change fields)
  | union branches => union (mapBranchDefaults change branches)
  | schema => schema

def mapFieldDefaults (change : Option Json → Option Json) : List Field → List Field
  | [] => []
  | ⟨name, schema, default⟩ :: rest =>
      ⟨name, schema.mapDefaults change, change default⟩ :: mapFieldDefaults change rest

def mapBranchDefaults (change : Option Json → Option Json) : List Schema → List Schema
  | [] => []
  | branch :: rest => branch.mapDefaults change :: mapBranchDefaults change rest

end

def withoutDefaults (s : Schema) : Schema :=
  s.mapDefaults fun _ => none

def default? : Option Json → Option Json
  | some .null => none
  | value => value

def withoutNullDefaults (s : Schema) : Schema :=
  s.mapDefaults default?

end Docket.Schema
