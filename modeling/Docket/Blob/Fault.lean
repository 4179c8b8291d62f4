import Docket.Text.Utf8

/-!
# Faults of blobs

A blob is malformed when its bytes are no value of the schema it is read by, or
when a value has the right kind but cannot be laid out by the schema.
-/
namespace Docket.Blob

/-- The most items an array may hold when each takes up no bytes. -/
def zeroWidthLimit : Nat := 65536

inductive Fault where
  /-- More bytes are needed at an offset than remain there. -/
  | shortage (needed offset remaining : Nat)
  | longVarint
  | intRange (value : Int)
  | negativeLength (value : Int)
  | badText (fault : Text.Utf8.Fault)
  | badBoolean (byte : UInt8)
  | badOrdinal (name : String) (ordinal : Nat)
  | badBranch (index branches : Nat)
  /-- A block announces more items without width than an array may hold. -/
  | weightlessBlock (count : Nat)
  /-- A block announces more items than fit the bytes that remain. -/
  | heavyBlock (count width remaining : Nat)
  | trailing (count : Nat)
  | fixedSize (name : String) (expected found : Nat)
  | recordSize (name : String) (expected found : Nat)
  deriving DecidableEq, Repr

def Fault.message : Fault → String
  | .shortage needed offset remaining => s!"need {needed} bytes at offset {offset}, {remaining} remain"
  | .longVarint => "varint longer than 10 bytes"
  | .intRange value => s!"int out of range: {value}"
  | .negativeLength value => s!"negative length: {value}"
  | .badText fault => "invalid UTF-8: " ++ fault.message
  | .badBoolean byte => s!"invalid boolean byte {byte.toNat}"
  | .badOrdinal name ordinal => s!"enum '{name}' has no ordinal {ordinal}"
  | .badBranch index branches => s!"union branch {index} out of range ({branches} branches)"
  | .weightlessBlock count => s!"block of {count} zero-width items exceeds limit of {zeroWidthLimit}"
  | .heavyBlock count width remaining =>
      s!"block of {count} items needs at least {width} bytes per item, {remaining} remain"
  | .trailing count => s!"{count} trailing bytes after value"
  | .fixedSize name expected found => s!"fixed '{name}' expects {expected} bytes, value has {found}"
  | .recordSize name expected found => s!"record '{name}' expects {expected} fields, value has {found}"

end Docket.Blob
