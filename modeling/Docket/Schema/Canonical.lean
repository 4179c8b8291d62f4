import Docket.Json.Printer
import Docket.Schema.Basic

/-!
# The canonical form of a schema

The canonical form is a text that identifies a schema up to the defaults of its
fields: two schemas with one canonical form read the same bytes in the same way.
-/
namespace Docket.Schema

mutual

/-- The canonical form as a document value: primitives by name, unions as arrays,
everything else as an object with its keys in order. -/
def canonicalJson : Schema → Json
  | enum name symbols =>
      .object [("name", .string name), ("symbols", .array (symbols.map .string)), ("type", .string "enum")]
  | fixed name size =>
      .object [("name", .string name), ("size", .ofNat size.toNat), ("type", .string "fixed")]
  | array items => .object [("items", items.canonicalJson), ("type", .string "array")]
  | map values => .object [("type", .string "map"), ("values", values.canonicalJson)]
  | record name fields =>
      .object [("fields", .array (canonicalFields fields)), ("name", .string name), ("type", .string "record")]
  | union branches => .array (canonicalBranches branches)
  | primitive => .string primitive.kind.name

def canonicalFields : List Field → List Json
  | [] => []
  | ⟨name, schema, _⟩ :: rest =>
      .object [("name", .string name), ("type", schema.canonicalJson)] :: canonicalFields rest

def canonicalBranches : List Schema → List Json
  | [] => []
  | branch :: rest => branch.canonicalJson :: canonicalBranches rest

end

def canonicalForm (s : Schema) : String :=
  s.canonicalJson.text

end Docket.Schema
