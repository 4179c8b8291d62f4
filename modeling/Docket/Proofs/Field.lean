import Docket.Field
import Docket.Proofs.Blob.RoundTrip
import Docket.Proofs.DecoderCache
import Docket.Proofs.Numeral.RoundTrip
import Docket.Proofs.Text.Base64

/-!
# A field gives back what was stored in it

Scalars come back from their texts, blobs from theirs; all that is lost is which
not-a-number it was. A blob comes back exactly when it is roomy: what the reader
refuses is an array of more items without width than it allows, which the writer
does not refuse.
-/
namespace Docket

/-- What reading comes to: a value if a condition holds, else that a blob is bad. -/
structure Decides {α : Type} (r : Except ValueError α) (value : α) (p : Prop) : Prop where
  value : p → r = .ok value
  malformed : ¬p → ∃ fault, r = .error (.malformed fault)

namespace Decides

variable {α β : Type} {r : Except ValueError α} {value : α} {p q : Prop}

theorem congr (h : Decides r value p) (hp : p ↔ q) : Decides r value q :=
  ⟨fun hq => h.value (hp.2 hq), fun hq => h.malformed fun h => hq (hp.1 h)⟩

theorem map (h : Decides r value p) (f : α → β) : Decides (r.map f) (f value) p := by
  constructor
  · intro hp
    rw [h.value hp]
    rfl
  · intro hp
    obtain ⟨fault, he⟩ := h.malformed hp
    exact ⟨fault, by rw [he]; rfl⟩

/-- What comes to its value anyway does so on any condition that holds. -/
theorem of_ok (h : r = .ok value) (hp : p) : Decides r value p :=
  ⟨fun _ => h, fun hn => absurd hp hn⟩

end Decides

theorem Datum.eq_null_of_isNull {value : Datum} (h : value.isNull = true) : value = .null := by
  cases value <;> first | rfl | cases h

namespace Field

/-- The value that a field gives back of one that was stored by a schema. -/
def kept (schema : Schema) (value : Datum) : Datum :=
  match schema, value with
  | .float, .float bits =>
      .float (if Numeral.Format.single.isNan bits.toNat then Numeral.Format.single.quietNan.toUInt32 else bits)
  | .double, .double bits =>
      .double (if Numeral.Format.double.isNan bits.toNat then Numeral.Format.double.quietNan.toUInt64 else bits)
  | _, value => value

theorem kept_null (schema : Schema) : kept schema .null = .null := by
  cases schema <;> rfl

/-! ### Scalars -/

theorem int?_toString (value : Int32) : int? (toString value.toInt) = some value := by
  have hl := value.le_toInt
  have hh := value.toInt_lt
  rw [int?, Numeral.integer?_toString hl (by omega), Option.map_some, Int32.ofInt_toInt]

theorem long?_toString (value : Int64) : long? (toString value.toInt) = some value := by
  have hl := value.le_toInt
  have hh := value.toInt_lt
  rw [long?, Numeral.integer?_toString hl (by omega), Option.map_some, Int64.ofInt_toInt]

theorem boolean?_text (value : Bool) : boolean? (if value then "true" else "false") = some value := by
  cases value <;> rfl

theorem float?_text (bits : UInt32) : float? (Numeral.Format.single.text .field bits.toNat) =
    some (if Numeral.Format.single.isNan bits.toNat then Numeral.Format.single.quietNan.toUInt32 else bits) := by
  have hb : bits.toNat < 2 * Numeral.Format.single.signBit := bits.toNat_lt
  cases hn : Numeral.Format.single.isNan bits.toNat with
  | true =>
      rw [float?, Numeral.Format.parse?_text_of_isNan hn]
      rfl
  | false =>
      rw [float?, Numeral.Format.parse?_text Numeral.Format.balanced_single hb hn, Option.map_some]
      exact congrArg some UInt32.ofNat_toNat

theorem double?_text (bits : UInt64) : double? (Numeral.Format.double.text .field bits.toNat) =
    some (if Numeral.Format.double.isNan bits.toNat then Numeral.Format.double.quietNan.toUInt64 else bits) := by
  have hb : bits.toNat < 2 * Numeral.Format.double.signBit := bits.toNat_lt
  cases hn : Numeral.Format.double.isNan bits.toNat with
  | true =>
      rw [double?, Numeral.Format.parse?_text_of_isNan hn]
      rfl
  | false =>
      rw [double?, Numeral.Format.parse?_text Numeral.Format.balanced_double hb hn, Option.map_some]
      exact congrArg some UInt64.ofNat_toNat

theorem parseScalar_string {α : Type} {field expected text : String} {parse? : String → Option α} {value : α}
    (h : parse? text = some value) : parseScalar field expected parse? (.string text) = .ok value := by
  simp only [parseScalar, scalarText, h, bind, Except.bind]

theorem storedBytes_encode (field : String) (bytes : List UInt8) :
    storedBytes field (.string (Text.Base64.encode bytes)) = .ok bytes := by
  simp only [storedBytes, Text.Base64.decode_encode]

/-- A scalar is stored as a text, and comes back from it. -/
theorem decodeScalar_encodeScalar {field : String} {schema : Schema} {value : Datum} {stored : Json}
    (h : encodeScalar field schema value = .ok stored) :
    ∃ text, stored = .string text ∧ decodeScalar field schema stored = .ok (kept schema value) := by
  cases schema <;> cases value <;> simp only [encodeScalar, reduceCtorEq, Except.ok.injEq] at h
  case boolean.boolean value =>
    subst h
    refine ⟨_, rfl, ?_⟩
    simp only [decodeScalar, parseScalar_string (boolean?_text value)]
    rfl
  case int.int value =>
    subst h
    refine ⟨_, rfl, ?_⟩
    simp only [decodeScalar, parseScalar_string (int?_toString value)]
    rfl
  case long.long value =>
    subst h
    refine ⟨_, rfl, ?_⟩
    simp only [decodeScalar, parseScalar_string (long?_toString value)]
    rfl
  case float.float bits =>
    subst h
    refine ⟨_, rfl, ?_⟩
    simp only [decodeScalar, parseScalar_string (float?_text bits)]
    rfl
  case double.double bits =>
    subst h
    refine ⟨_, rfl, ?_⟩
    simp only [decodeScalar, parseScalar_string (double?_text bits)]
    rfl
  case string.string value =>
    subst h
    exact ⟨_, rfl, rfl⟩
  case bytes.bytes value =>
    subst h
    refine ⟨_, rfl, ?_⟩
    simp only [decodeScalar, storedBytes_encode]
    rfl
  case enum.enum name symbols symbol =>
    split at h
    · rename_i hc
      cases h
      refine ⟨_, rfl, ?_⟩
      simp only [decodeScalar, scalarText, bind, Except.bind, hc, if_true]
      rfl
    · cases h

/-! ### Any field -/

/-- The value fits a machine, and so does its blob. -/
structure Fits (schema : Schema) (value : Datum) : Prop where
  sized : Sized schema value
  weighed : ∀ bytes, Blob.encode schema value = .ok bytes → Weighed schema bytes

variable {field : String} {schema : Schema} {value : Datum} {desk later : Desk} {stored : Json}

/-- A decoder that was asked for works by the schema it was asked for. -/
theorem decoder_works (hc : desk.cache.Coherent) {d : Decoder} (h : (desk.decoder schema).1 = .ok d) :
    (∀ value, d.encode value = Blob.encode schema value) ∧
      (∀ bytes old, d.decode bytes old = Blob.decode schema bytes old) ∧
      Decoder.build schema 0 = .ok ⟨schema, 0⟩ := by
  obtain ⟨d', hd, hb, ha, -⟩ | ⟨e, he, -⟩ := Desk.decoder_transparent hc schema
  · rw [← Except.ok.inj (hd.symm.trans h)]
    exact ⟨ha.encode, ha.decode, hb⟩
  · rw [he] at h
    cases h

/-- Where a decoder can be built, one is handed out. -/
theorem decoder_of_build (hc : desk.cache.Coherent) {own : Decoder} (hb : Decoder.build schema 0 = .ok own) :
    ∃ d left, desk.decoder schema = (.ok d, left) ∧ (∀ value, d.encode value = Blob.encode schema value) ∧
      ∀ bytes old, d.decode bytes old = Blob.decode schema bytes old := by
  obtain ⟨d, hd, -⟩ | ⟨e, -, he⟩ := Desk.decoder_transparent hc schema
  · obtain ⟨hencode, hdecode, -⟩ := decoder_works hc hd
    exact ⟨d, (desk.decoder schema).2, Prod.ext hd rfl, hencode, hdecode⟩
  · rw [hb] at he
    cases he

theorem coherent_encode (hc : desk.cache.Coherent) (field : String) (schema : Schema) (value : Datum) :
    (encode field schema value desk).2.cache.Coherent := by
  rcases desk_encode field schema value desk with h | h
  · rw [h]
    exact hc
  · rw [h]
    exact Desk.coherent_decoder hc schema.carrier

theorem coherent_decode (hc : desk.cache.Coherent) (field : String) (position : Nat) (schema : Schema)
    (raw : Option Json) (record : Record) : (decode field position schema raw record desk).desk.cache.Coherent := by
  rcases desk_decode field position schema raw record desk with h | h
  · rw [h]
    exact hc
  · rw [h]
    exact Desk.coherent_decoder hc schema.carrier

/-- Where no decoder can be built, none is handed out and nothing is kept. -/
theorem decoder_of_build_error (hc : desk.cache.Coherent) {e : ValueError} (hb : Decoder.build schema 0 = .error e) :
    desk.decoder schema = (.error e, desk) := by
  obtain ⟨d, -, hok, -⟩ | ⟨e', hd, he⟩ := Desk.decoder_transparent hc schema
  · rw [hb] at hok
    cases hok
  · rw [hb] at he
    rw [hd, Except.error.inj he]

/-- What is read does not depend on the decoders that are there. -/
theorem decode_eq (hc : desk.cache.Coherent) (hl : later.cache.Coherent) (field : String) (position : Nat)
    (schema : Schema) (raw : Option Json) (record : Record) :
    (decode field position schema raw record desk).result = (decode field position schema raw record later).result ∧
      (decode field position schema raw record desk).record =
        (decode field position schema raw record later).record := by
  unfold decode
  split
  · exact ⟨rfl, rfl⟩
  · exact ⟨rfl, rfl⟩
  · dsimp only
    split
    · unfold decodeBlob
      split
      · exact ⟨rfl, rfl⟩
      · cases hb : Decoder.build schema.carrier 0 with
        | error e =>
            rw [decoder_of_build_error hc hb, decoder_of_build_error hl hb]
            exact ⟨rfl, rfl⟩
        | ok own =>
            obtain ⟨d, left, hd, -, hw⟩ := decoder_of_build hc hb
            obtain ⟨d', left', hd', -, hw'⟩ := decoder_of_build hl hb
            rw [hd, hd']
            exact ⟨(hw _ _).trans (hw' _ _).symm, rfl⟩
    · exact ⟨rfl, rfl⟩

/-- Nor does what is stored. -/
theorem encode_eq (hc : desk.cache.Coherent) (hl : later.cache.Coherent) (field : String) (schema : Schema)
    (value : Datum) : (encode field schema value desk).1 = (encode field schema value later).1 := by
  unfold encode
  split
  · rfl
  · dsimp only
    split
    · cases hb : Decoder.build schema.carrier 0 with
      | error e => rw [decoder_of_build_error hc hb, decoder_of_build_error hl hb]
      | ok own =>
          obtain ⟨d, left, hd, hw, -⟩ := decoder_of_build hc hb
          obtain ⟨d', left', hd', hw', -⟩ := decoder_of_build hl hb
          rw [hd, hd']
          dsimp only
          rw [hw, hw']
    · rfl

/-- A value that has a blob is stored as its base64. -/
theorem encode_of_blob (hc : desk.cache.Coherent) (field : String) (hn : value.isNull = false) {d : Decoder}
    (hb : Decoder.build schema.carrier 0 = .ok d) {bytes : List UInt8}
    (he : Blob.encode schema.carrier value = .ok bytes) :
    (encode field schema value desk).1 = .ok (.string (Text.Base64.encode bytes)) := by
  have hk : schema.carrier.kind.isStructured ∨ schema.carrier.kind = .union := by
    unfold Decoder.build at hb
    split at hb
    · assumption
    · cases hb
  obtain ⟨d, left, hd, hw, -⟩ := decoder_of_build hc hb
  unfold encode
  rw [hn, if_neg Bool.false_ne_true]
  dsimp only
  rw [if_pos hk, hd]
  dsimp only
  rw [hw, he]
  rfl

/-- Reading a field leaves the record as it was, or with the field's position empty. -/
theorem record_decode (field : String) (position : Nat) (schema : Schema) (raw : Option Json) (record : Record)
    (desk : Desk) : (decode field position schema raw record desk).record = record ∨
      (decode field position schema raw record desk).record = record.setValue position .null := by
  unfold decode
  split
  · exact .inl rfl
  · exact .inl rfl
  · dsimp only
    split
    · unfold decodeBlob
      split
      · exact .inl rfl
      · split
        · exact .inl rfl
        · exact .inr rfl
    · exact .inl rfl

theorem decode_of_text {text : String} (position : Nat) (record : Record) :
    decode field position schema (some (.string text)) record desk =
      if schema.carrier.kind.isStructured ∨ schema.carrier.kind = .union then
        decodeBlob field position schema.carrier (.string text) record desk
      else ⟨decodeScalar field schema.carrier (.string text), record, desk⟩ := by
  rfl

/-- A blob is stored as its base64, and comes back from it if it is roomy. -/
theorem decides_decodeBlob (hc : desk.cache.Coherent) {bytes : List UInt8}
    (hb : Decoder.build schema 0 = .ok ⟨schema, 0⟩)
    (he : Blob.encode schema value = .ok bytes) (hf : Fits schema value) (position : Nat) (record : Record) :
    Decides (decodeBlob field position schema (.string (Text.Base64.encode bytes)) record desk).result value
      (Blob.Roomy schema value) := by
  have hs := Blob.settles_sized .everyBlock schema hf.sized (hf.weighed bytes he) he (record.take position).1
  obtain ⟨hok, hbad⟩ := Blob.decode_of_settles hs
  obtain ⟨d, left, hd, -, hw⟩ := decoder_of_build hc hb
  unfold decodeBlob
  rw [storedBytes_encode]
  dsimp only
  rw [hd]
  constructor
  · intro hp
    exact (hw bytes _).trans (hok hp)
  · intro hp
    obtain ⟨fault, hfault⟩ := hbad hp
    exact ⟨fault, (hw bytes _).trans hfault⟩

/-- Where a blob is called for, what is stored is the base64 of the value's blob. -/
theorem exists_blob_of_encode (hc : desk.cache.Coherent) (he : (encode field schema value desk).1 = .ok stored)
    (hn : value.isNull = false) (hk : schema.carrier.kind.isStructured ∨ schema.carrier.kind = .union) :
    ∃ bytes, Blob.encode schema.carrier value = .ok bytes ∧ stored = .string (Text.Base64.encode bytes) ∧
      Decoder.build schema.carrier 0 = .ok ⟨schema.carrier, 0⟩ := by
  unfold encode at he
  rw [hn, if_neg Bool.false_ne_true] at he
  dsimp only at he
  rw [if_pos hk] at he
  split at he
  · cases he
  · rename_i d left hd
    obtain ⟨hencode, -, hb⟩ := decoder_works hc (show (desk.decoder schema.carrier).1 = .ok d by rw [hd])
    obtain ⟨bytes, hbytes, hs⟩ := map_eq_ok he
    rw [hencode] at hbytes
    exact ⟨bytes, hbytes, hs.symm, hb⟩

/-- What was stored in a field comes back from it if it is roomy, whatever the record
holds there and whatever decoders there are. -/
theorem decides_decode (hc : desk.cache.Coherent) (hl : later.cache.Coherent)
    (he : (encode field schema value desk).1 = .ok stored) (hn : value.isNull = false)
    (hf : Fits schema.carrier value) (position : Nat) (record : Record) :
    Decides (decode field position schema (some stored) record later).result (kept schema.carrier value)
      (Blob.Roomy schema.carrier value) := by
  by_cases hk : schema.carrier.kind.isStructured ∨ schema.carrier.kind = .union
  · obtain ⟨bytes, hbytes, rfl, hb⟩ := exists_blob_of_encode hc he hn hk
    have hkept : kept schema.carrier value = value := by
      generalize schema.carrier = carrier at hk
      cases carrier <;> first | rfl | simp [Schema.kind, Kind.isStructured] at hk
    rw [decode_of_text, if_pos hk, hkept]
    exact decides_decodeBlob hl hb hbytes hf position record
  · unfold encode at he
    rw [hn, if_neg Bool.false_ne_true] at he
    dsimp only at he
    rw [if_neg hk] at he
    obtain ⟨text, rfl, hd⟩ := decodeScalar_encodeScalar he
    have hr : Blob.Roomy schema.carrier value := Blob.roomy_scalar (by simpa using hk)
    rw [decode_of_text, if_neg hk]
    exact .of_ok hd hr

end Field

end Docket
