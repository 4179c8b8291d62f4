import Docket.Json.Printer
import Docket.Schema.Check
import Docket.Schema.Defaults

/-!
# Schemas as document values

A schema is written as an object whose `type` names its kind, followed by its
parts; a field without default writes none, and a null default reads as none.

Reading accepts more than writing produces. The parts may come as a list in
declared order, and a schema inside another may give its kind by number. Objects
are read key by key in key order, unknown keys are passed over, and a record is
checked as soon as its parts are known, so what a faulty value is refused for
depends on which part comes first.
-/
namespace Docket

inductive SchemaFault where
  | shape
  | rule (error : SchemaError)
  deriving DecidableEq, Repr

namespace Schema

mutual

def toJson : Schema → Json
  | enum name symbols =>
      .object [("type", .string "enum"), ("name", .string name), ("symbols", .array (symbols.map .string))]
  | fixed name size =>
      .object [("type", .string "fixed"), ("name", .string name), ("size", .ofNat size.toNat)]
  | array items => .object [("type", .string "array"), ("items", items.toJson)]
  | map values => .object [("type", .string "map"), ("values", values.toJson)]
  | record name fields =>
      .object [("type", .string "record"), ("name", .string name), ("fields", .array (fieldsToJson fields))]
  | union branches =>
      .object [("type", .string "union"), ("branches", .array (branchesToJson branches))]
  | primitive => .object [("type", .string primitive.kind.name)]

def fieldsToJson : List Field → List Json
  | [] => []
  | ⟨name, schema, default⟩ :: rest =>
      .object ([("name", .string name), ("schema", schema.toJson)] ++
        (match default with
          | some value => [("default", value)]
          | none => [])) :: fieldsToJson rest

def branchesToJson : List Schema → List Json
  | [] => []
  | branch :: rest => branch.toJson :: branchesToJson rest

end

/-- The kind that a document value stands for: its name or, inside another
schema, its place among the kinds. -/
def kind? (inside : Bool) (value : Json) : Option Kind :=
  match value with
  | .string name => Kind.all.find? (·.name = name)
  | value => if inside then value.natural?.bind fun n => Kind.all[n]? else none

def primitive? : Kind → Option Schema
  | .null => some null
  | .boolean => some boolean
  | .int => some int
  | .long => some long
  | .float => some float
  | .double => some double
  | .string => some string
  | .bytes => some bytes
  | _ => none

def text (value : Json) : Except SchemaFault String :=
  match value with
  | .string s => .ok s
  | _ => .error .shape

/-- A part that must be there. -/
def required {α : Type} : Option α → Except SchemaFault α
  | some value => .ok value
  | none => .error .shape

/-- A list of parts must end where the last part does. -/
def nothing : List Json → Except SchemaFault Unit
  | [] => .ok ()
  | _ => .error .shape

def texts : List Json → Except SchemaFault (List String)
  | [] => .ok []
  | item :: rest => do
      let first ← text item
      let others ← texts rest
      return first :: others

def symbols (value : Json) : Except SchemaFault (List String) :=
  match value with
  | .array items => texts items
  | _ => .error .shape

/-- A size is an integer of at most 64 bits. -/
def size (value : Json) : Except SchemaFault UInt64 :=
  match value.natural? with
  | some n => if n < 2 ^ 64 then .ok n.toUInt64 else .error .shape
  | none => .error .shape

/-- The record of a name and fields, if they pass the rules of records. -/
def checkedRecord (name : String) (fields : List Field) : Except SchemaFault Schema :=
  match checkFields name [] fields with
  | .ok () => .ok (record name fields)
  | .error e => .error (.rule e)

theorem sizeOf_lt_of_find? {key : String} {value : Json} {fields : List (String × Json)}
    (h : Entries.find? key fields = some value) : sizeOf value < sizeOf fields := by
  have := List.sizeOf_lt_of_mem (Entries.mem_of_find? h)
  simp only [Prod.mk.sizeOf_spec] at this
  omega

mutual

/-- The schema that a document value stands for, alone or inside another. -/
def read (inside : Bool) (value : Json) : Except SchemaFault Schema :=
  match value with
  | .object parts =>
      match (Entries.find? "type" parts).bind (kind? inside) with
      | some .enum => do
          let name ← (Entries.find? "name" parts).mapM text
          let symbols ← (Entries.find? "symbols" parts).mapM symbols
          return enum (← required name) (← required symbols)
      | some .fixed => do
          let name ← (Entries.find? "name" parts).mapM text
          let size ← (Entries.find? "size" parts).mapM size
          return fixed (← required name) (← required size)
      | some .array =>
          match _found : Entries.find? "items" parts with
          | some items => (read true items).map array
          | none => .error .shape
      | some .map =>
          match _found : Entries.find? "values" parts with
          | some values => (read true values).map map
          | none => .error .shape
      | some .record => do
          let fields ← match _found : Entries.find? "fields" parts with
            | some (.array items) => readFields true items
            | _ => .error .shape
          checkedRecord (← required (← (Entries.find? "name" parts).mapM text)) fields
      | some .union =>
          match _found : Entries.find? "branches" parts with
          | some (.array items) => (readBranches items).map union
          | _ => .error .shape
      | some kind => required (primitive? kind)
      | none => .error .shape
  | .array (tag :: parts) =>
      match kind? inside tag, parts with
      | some .enum, name :: listed :: rest => do
          let name ← text name
          let listed ← symbols listed
          nothing rest
          return enum name listed
      | some .fixed, name :: length :: rest => do
          let name ← text name
          let length ← size length
          nothing rest
          return fixed name length
      | some .array, items :: rest => do
          let items ← read true items
          nothing rest
          return array items
      | some .map, values :: rest => do
          let values ← read true values
          nothing rest
          return map values
      | some .record, name :: .array items :: rest => do
          let name ← text name
          let fields ← readFields true items
          nothing rest
          checkedRecord name fields
      | some .union, .array items :: rest => do
          let branches ← readBranches items
          nothing rest
          return union branches
      | some kind, rest => do
          nothing rest
          required (primitive? kind)
      | none, _ => .error .shape
  | _ => .error .shape
termination_by sizeOf value
decreasing_by
  all_goals first
    | (have smaller := sizeOf_lt_of_find? _found; simp at smaller ⊢; omega)
    | (simp; omega)

def readField (inside : Bool) (value : Json) : Except SchemaFault Field :=
  match value with
  | .object parts => do
      let name ← (Entries.find? "name" parts).mapM text
      let schema ← match _found : Entries.find? "schema" parts with
        | some schema => read inside schema
        | none => .error .shape
      return ⟨← required name, schema, default? (Entries.find? "default" parts)⟩
  | .array (name :: schema :: rest) => do
      let name ← text name
      let schema ← read inside schema
      nothing rest.tail
      return ⟨name, schema, default? rest.head?⟩
  | _ => .error .shape
termination_by sizeOf value
decreasing_by
  all_goals first
    | (have smaller := sizeOf_lt_of_find? _found; simp at smaller ⊢; omega)
    | (simp; omega)

def readFields (inside : Bool) (values : List Json) : Except SchemaFault (List Field) :=
  match values with
  | [] => .ok []
  | value :: rest => do
      let first ← readField inside value
      let others ← readFields inside rest
      return first :: others
termination_by sizeOf values

def readBranches (values : List Json) : Except SchemaFault (List Schema) :=
  match values with
  | [] => .ok []
  | value :: rest => do
      let first ← read true value
      let others ← readBranches rest
      return first :: others
termination_by sizeOf values

end

def ofJson (value : Json) : Except SchemaFault Schema :=
  read false value

end Schema

namespace RecordSchema

/-- The object of a record schema, without a `type`. -/
def toJson (r : RecordSchema) : Json :=
  .object [("name", .string r.name), ("fields", .array (Schema.fieldsToJson r.fields))]

def ofParts (name : String) (fields : List Field) : Except SchemaFault RecordSchema :=
  match ofFields name fields with
  | .ok r => .ok r
  | .error e => .error (.rule e)

def ofJson (value : Json) : Except SchemaFault RecordSchema :=
  match value with
  | .object parts => do
      let fields ← match Entries.find? "fields" parts with
        | some (.array items) => Schema.readFields false items
        | _ => .error .shape
      ofParts (← Schema.required (← (Entries.find? "name" parts).mapM Schema.text)) fields
  | .array (name :: .array items :: rest) => do
      let name ← Schema.text name
      let fields ← Schema.readFields false items
      Schema.nothing rest
      ofParts name fields
  | _ => .error .shape

end RecordSchema

end Docket
