import Docket.Decoder
import Docket.Numeral.Reader
import Docket.Numeral.Layout
import Docket.Record.Basic
import Docket.Schema.Optional

/-!
# The stored form of a field

Scalars are stored as texts, and read from texts as well as from the numbers and
truth values of documents. Bytes are stored in base64, and so are the blobs of
arrays, maps, records and tagged unions. Null is stored as null for every schema,
and a field that is missing reads as null. Fixed-length fields cannot be stored.
-/
namespace Docket.Field

open Numeral (integer?)

def scalarText (field expected : String) : Json → Except ValueError String
  | .string s => .ok s
  | .number n => .ok n.text
  | .bool b => .ok (if b then "true" else "false")
  | other => .error (.unexpectedKind field expected other.kindName)

/-- A stored scalar as a text that `parse?` must accept. -/
def parseScalar {α : Type} (field expected : String) (parse? : String → Option α) (raw : Json) :
    Except ValueError α := do
  let text ← scalarText field expected raw
  match parse? text with
  | some value => .ok value
  | none => .error (.invalidScalar field expected text)

def boolean? (text : String) : Option Bool :=
  if text = "true" then some true else if text = "false" then some false else none

def int? (text : String) : Option Int32 :=
  (integer? (-2 ^ 31) (2 ^ 31 - 1) text).map Int32.ofInt

def long? (text : String) : Option Int64 :=
  (integer? (-2 ^ 63) (2 ^ 63 - 1) text).map Int64.ofInt

def float? (text : String) : Option UInt32 :=
  (Numeral.Format.single.parse? text).map Nat.toUInt32

def double? (text : String) : Option UInt64 :=
  (Numeral.Format.double.parse? text).map Nat.toUInt64

def storedBytes (field : String) (raw : Json) : Except ValueError (List UInt8) :=
  match raw with
  | .string text =>
      match Text.Base64.decode text with
      | .ok bytes => .ok bytes
      | .error fault => .error (.invalidEncoding field fault)
  | other => .error (.unexpectedKind field "base64 string" other.kindName)

/-- What reading a field leaves: the value or the error, the record it was read
for, and the desk. -/
structure Outcome where
  result : Except ValueError Datum
  record : Record
  desk : Desk

/-- Reads a blob over the value that the record holds in the field's position.
The position is emptied once there is a decoder, whether or not the blob is sound. -/
def decodeBlob (field : String) (position : Nat) (schema : Schema) (raw : Json) (record : Record)
    (desk : Desk) : Outcome :=
  match storedBytes field raw with
  | .error e => ⟨.error e, record, desk⟩
  | .ok bytes =>
      match desk.decoder schema with
      | (.error e, desk) => ⟨.error e, record, desk⟩
      | (.ok decoder, desk) =>
          let (old, record) := record.take position
          ⟨decoder.decode bytes old, record, desk⟩

def decodeScalar (field : String) (schema : Schema) (raw : Json) : Except ValueError Datum :=
  match schema with
  | .null => .ok .null
  | .boolean =>
      match raw with
      | .bool b => .ok (.boolean b)
      | other => (parseScalar field "boolean" boolean? other).map .boolean
  | .int => (parseScalar field "int" int? raw).map .int
  | .long => (parseScalar field "long" long? raw).map .long
  | .float => (parseScalar field "float" float? raw).map .float
  | .double => (parseScalar field "double" double? raw).map .double
  | .string => (scalarText field "string" raw).map .string
  | .bytes => (storedBytes field raw).map .bytes
  | .enum name symbols => do
      let symbol ← scalarText field "enum symbol" raw
      if symbols.contains symbol then .ok (.enum symbol) else .error (.unknownSymbol name symbol)
  | _ => .error (.unsupportedFixed field)

/-- Reads the stored value of the field `field`, which stands at a position of the
record, by a schema. -/
def decode (field : String) (position : Nat) (schema : Schema) (raw : Option Json) (record : Record)
    (desk : Desk) : Outcome :=
  match raw with
  | none | some .null => ⟨.ok .null, record, desk⟩
  | some raw =>
      let schema := schema.carrier
      if schema.kind.isStructured ∨ schema.kind = .union then
        decodeBlob field position schema raw record desk
      else ⟨decodeScalar field schema raw, record, desk⟩

def encodeScalar (field : String) : Schema → Datum → Except ValueError Json
  | .boolean, .boolean value => .ok (.string (if value then "true" else "false"))
  | .int, .int value => .ok (.string (toString value.toInt))
  | .long, .long value => .ok (.string (toString value.toInt))
  | .float, .float bits => .ok (.string (Numeral.Format.single.text .field bits.toNat))
  | .double, .double bits => .ok (.string (Numeral.Format.double.text .field bits.toNat))
  | .string, .string value => .ok (.string value)
  | .bytes, .bytes value => .ok (.string (Text.Base64.encode value))
  | .enum name symbols, .enum symbol =>
      if symbols.contains symbol then .ok (.string symbol) else .error (.unknownSymbol name symbol)
  | .fixed _ _, _ => .error (.unsupportedFixed field)
  | schema, value => .error (.mismatch schema.kind value.kind)

def encode (field : String) (schema : Schema) (value : Datum) (desk : Desk) :
    Except ValueError Json × Desk :=
  if value.isNull then (.ok .null, desk)
  else
    let schema := schema.carrier
    if schema.kind.isStructured ∨ schema.kind = .union then
      match desk.decoder schema with
      | (.error e, desk) => (.error e, desk)
      | (.ok decoder, desk) =>
          ((decoder.encode value).map fun bytes => .string (Text.Base64.encode bytes), desk)
    else (encodeScalar field schema value, desk)

end Docket.Field
