import Docket.Blob.Fault
import Docket.Schema.Check
import Docket.Text.Base64
import Docket.Text.Quoted

/-!
# Why a value cannot be brought into or out of its stored form
-/
namespace Docket

inductive ValueError where
  /-- A stored scalar is no text of the expected kind. -/
  | invalidScalar (field expected value : String)
  /-- A stored value has a kind that the field cannot be read from. -/
  | unexpectedKind (field expected found : String)
  | unknownSymbol (name symbol : String)
  /-- Fixed-length fields have no stored form. -/
  | unsupportedFixed (field : String)
  | invalidEncoding (field : String) (fault : Text.Base64.Fault)
  | malformed (fault : Blob.Fault)
  | mismatch (expected found : Kind)
  | notStructured (kind : Kind)
  | unknownField (name : String)
  | schema (error : SchemaError)
  deriving DecidableEq, Repr

namespace ValueError

def message : ValueError → String
  | invalidScalar field expected value => s!"Field '{field}': cannot parse {Text.quote value} as {expected}"
  | unexpectedKind field expected found =>
      s!"Field '{field}': expected {expected} in stored document, found {found}"
  | unknownSymbol name symbol => s!"Enum '{name}' has no symbol '{symbol}'"
  | unsupportedFixed field => s!"Field '{field}': fixed-type fields cannot be decoded from a document"
  | invalidEncoding field fault => s!"Field '{field}': invalid base64 payload: {fault.message}"
  | malformed fault => "Malformed blob: " ++ fault.message
  | mismatch expected found => s!"Value of kind {found.name} does not match schema kind {expected.name}"
  | notStructured kind => s!"No structured decoder exists for schema kind {kind.name}"
  | unknownField name => s!"Unknown field '{name}'"
  | schema error => error.message

def code : ValueError → String
  | invalidScalar _ _ _ => "COUCHMAP_DECODE_INVALID_SCALAR"
  | unexpectedKind _ _ _ => "COUCHMAP_DECODE_UNEXPECTED_RAW"
  | unknownSymbol _ _ => "COUCHMAP_DECODE_UNKNOWN_SYMBOL"
  | unsupportedFixed _ => "COUCHMAP_DECODE_UNSUPPORTED_FIXED"
  | invalidEncoding _ _ => "COUCHMAP_DECODE_INVALID_ENCODING"
  | malformed _ => "COUCHMAP_DECODE_MALFORMED_BLOB"
  | mismatch _ _ => "COUCHMAP_ENCODE_TYPE_MISMATCH"
  | notStructured _ => "COUCHMAP_CODEC_NOT_STRUCTURED"
  | unknownField _ => "COUCHMAP_CODEC_UNKNOWN_FIELD"
  | schema error => error.code

end ValueError

end Docket
