import Docket.Blob.Decode
import Docket.Journal.Line
import Docket.Schema.Canonical
import Docket.Tally

/-!
# Decoders and the desk they are kept at

A decoder is a schema that was found fit to read and write blobs. A cache keeps
one decoder for each canonical form, numbers them as they are built and never
drops one. The desk is everything an operation leaves behind beside its result:
the decoders built, the events noted and the counts.
-/
namespace Docket

/-- A schema whose values are stored as blobs, its rules checked. -/
structure Decoder where
  schema : Schema
  /-- Which decoder of its cache it is, in the order of building. -/
  number : Nat

namespace Decoder

/-- A decoder for a structured schema or a union that keeps its rules. -/
def build (schema : Schema) (number : Nat) : Except ValueError Decoder :=
  if schema.kind.isStructured ∨ schema.kind = .union then
    match schema.check with
    | .ok () => .ok ⟨schema, number⟩
    | .error e => .error (.schema e)
  else .error (.notStructured schema.kind)

def canonicalForm (d : Decoder) : String :=
  d.schema.canonicalForm

def encode (d : Decoder) (value : Datum) : Except ValueError (List UInt8) :=
  Blob.encode d.schema value

def decode (d : Decoder) (bytes : List UInt8) (old : Datum) : Except ValueError Datum :=
  Blob.decode d.schema bytes old

end Decoder

/-- Decoders by canonical form, with the counts of their use. -/
structure DecoderCache where
  decoders : Keyed Decoder
  hits : Nat
  builds : Nat

namespace DecoderCache

def empty : DecoderCache := ⟨∅, 0, 0⟩

instance : EmptyCollection DecoderCache := ⟨empty⟩

instance : Inhabited DecoderCache := ⟨empty⟩

def size (c : DecoderCache) : Nat := c.decoders.size

def contains (c : DecoderCache) (schema : Schema) : Bool :=
  c.decoders.contains schema.canonicalForm

end DecoderCache

/-- What operations leave behind beside their results. -/
structure Desk where
  cache : DecoderCache
  journal : Journal
  tally : Tally

namespace Desk

def opened (threshold : Severity) : Desk := ⟨∅, .opened threshold, .zero⟩

def note (desk : Desk) (event : Event) (fields : List (String × String)) : Desk :=
  { desk with journal := desk.journal.note event fields }

def tick (desk : Desk) (counter : Counter) : Desk :=
  { desk with tally := desk.tally.tick counter }

/-- The decoder of a schema: the one in the cache, or a new one that is put there.
A schema that no decoder can be built for leaves the desk as it was. -/
def decoder (desk : Desk) (schema : Schema) : Except ValueError Decoder × Desk :=
  let form := schema.canonicalForm
  match desk.cache.decoders.find? form with
  | some found => (.ok found, { desk with cache := { desk.cache with hits := desk.cache.hits + 1 } })
  | none =>
      match Decoder.build schema desk.cache.builds with
      | .error e => (.error e, desk)
      | .ok built =>
          let cache := { desk.cache with decoders := desk.cache.decoders.insert form built,
                                         builds := desk.cache.builds + 1 }
          (.ok built, { desk with cache := cache }.note .decoderBuilt [("schema", form)])

end Desk

end Docket
