import Docket.Proofs.Blob.Writable
import Docket.Proofs.Field
import Docket.Proofs.Schema.Rules

/-!
# A field reads what it wrote

Of a schema that passes its check a field stores nothing that it cannot read again,
except for arrays of more items without width than the reader allows. An optional value
is stored by its own schema, and a value that is roomy for the union is so for that
schema too. It does not matter what the record holds by then and which decoders were
asked for before.
-/
namespace Docket

namespace Schema

variable {s first second : Schema}

theorem eq_null_of_kind (h : s.kind = .null) : s = null := by
  cases s <;> first | rfl | cases h

theorem carrier_of_kind_ne_union (h : s.kind ≠ .union) : s.carrier = s := by
  cases s with
  | union => exact absurd rfl h
  | _ => rfl

theorem carrier_eq_second (hf : first.kind = .null) (hs : second.kind ≠ .null) (hu : second.kind ≠ .union) :
    (union [first, second]).carrier = second := by
  have hne : first.kind ≠ second.kind := fun h => hs (h.symm.trans hf)
  have hshape : unionShape [first, second] = .optional 1 second := by
    simp [unionShape, isNullable, hf, hs, hf ▸ hne]
  rw [carrier, hshape]
  exact carrier_of_kind_ne_union hu

theorem carrier_eq_first (hf : first.kind ≠ .null) (hs : second.kind = .null) (hu : first.kind ≠ .union) :
    (union [first, second]).carrier = first := by
  have hshape : unionShape [first, second] = .optional 0 first := by simp [unionShape, isNullable, hf, hs]
  rw [carrier, hshape]
  exact carrier_of_kind_ne_union hu

theorem carrier_eq_self (hf : first.kind ≠ .null) (hs : second.kind ≠ .null) :
    (union [first, second]).carrier = union [first, second] := by
  have hshape : unionShape [first, second] = .tagged := by simp [unionShape, isNullable, hf, hs]
  rw [carrier, hshape]

/-- Of a schema that passes its check, the carrier is the schema itself, or it is the
branch of a union that stands beside null. -/
theorem carrier_cases (hs : s.check = .ok ()) : s.carrier = s ∨
    s.carrier.kind ≠ .union ∧ (s = union [null, s.carrier] ∨ s = union [s.carrier, null]) := by
  cases s with
  | union branches =>
      match branches with
      | [first, second] =>
          rw [check] at hs
          split at hs
          · cases hs
          · split at hs
            · cases hs
            · rename_i hnulls
              rw [checkBranches_eq_ok_iff, List.forall_mem_cons, List.forall_mem_singleton] at hs
              obtain ⟨⟨hfirst, -⟩, hsecond, -⟩ := hs
              by_cases hf : first.kind = .null
              · by_cases hn : second.kind = .null
                · exact absurd (by simp [hf, hn]) hnulls
                · rw [carrier_eq_second hf hn hsecond, eq_null_of_kind hf]
                  exact .inr ⟨hsecond, .inl rfl⟩
              · by_cases hn : second.kind = .null
                · rw [carrier_eq_first hf hn hfirst, eq_null_of_kind hn]
                  exact .inr ⟨hfirst, .inr rfl⟩
                · exact .inl (carrier_eq_self hf hn)
      | [] => exact .inl rfl
      | [_] => exact .inl rfl
      | _ :: _ :: _ :: _ => exact .inl rfl
  | _ => exact .inl rfl

theorem carrier_within (hs : s.check = .ok ()) : s.carrier.Within s := by
  obtain h | ⟨-, h | h⟩ := carrier_cases hs
  · rw [h]
    exact .self s
  · generalize s.carrier = branch at h ⊢
    rw [h]
    exact .branch (List.mem_cons_of_mem _ List.mem_cons_self) (.self branch)
  · generalize s.carrier = branch at h ⊢
    rw [h]
    exact .branch List.mem_cons_self (.self branch)

end Schema

namespace Blob

open Schema

variable {s : Schema} {value : Datum}

/-- What is roomy for a union is so for the branch that an optional value is stored by. -/
theorem roomy_carrier (hs : s.check = .ok ()) (hn : value.isNull = false) (he : Encodes s.carrier value)
    (hp : Roomy s value) : Roomy s.carrier value := by
  have hnull : ¬takes null value = true := by
    intro h
    cases value with
    | null => cases hn
    | _ => cases kind_eq_of_takes h
  obtain h | ⟨hk, h | h⟩ := carrier_cases hs
  · rw [h]
    exact hp
  all_goals
    have ht := takes_of_admits (admits_of_encodes he) hk
    generalize s.carrier = branch at h hk he ht ⊢
    subst h
  · have hf : [null, branch].find? (takes · value) = some branch :=
      (List.find?_cons_of_neg (p := (takes · value)) hnull).trans (List.find?_cons_of_pos ht)
    exact (roomy_union hf).1 hp
  · exact (roomy_union (List.find?_cons_of_pos ht)).1 hp

end Blob

namespace Desk

/-- Requests for decoders, and nothing else, have made the cache of what was an empty
one. -/
def Requested (desk : Desk) : Prop :=
  ∃ journal tally schemas, desk.cache = ((⟨∅, journal, tally⟩ : Desk).afterRequests schemas).cache

theorem Requested.coherent {desk : Desk} (h : desk.Requested) : desk.cache.Coherent := by
  obtain ⟨journal, tally, schemas, h⟩ := h
  rw [h]
  exact (recorded_requests (recorded_nil rfl) schemas).coherent

end Desk

namespace Field

variable {field : String} {schema : Schema} {value : Datum} {desk later : Desk} {stored : Json}

/-- Whether the value is not a number and stored as the text that says so. -/
def isTextNan (schema : Schema) (value : Datum) : Bool :=
  match schema, value with
  | .float, .float bits => Numeral.Format.single.isNan bits.toNat
  | .double, .double bits => Numeral.Format.double.isNan bits.toNat
  | _, _ => false

theorem kept_eq_self (h : isTextNan schema value = false) : kept schema value = value := by
  unfold isTextNan at h
  split at h
  · simp [kept, h]
  · simp [kept, h]
  · rename_i hf hd
    unfold kept
    split
    · exact (hf _ rfl rfl).elim
    · exact (hd _ rfl rfl).elim
    · rfl

/-- What a machine can hold fits the carrier too. -/
theorem fits_carrier (hs : schema.check = .ok ()) (hr : Representable schema value) : Fits schema.carrier value := by
  have hw : ∀ part : Schema, part.Within schema.carrier → part.Within schema :=
    fun _ h => h.trans (Schema.carrier_within hs)
  have hnarrow : schema.carrier.Narrow :=
    ⟨fun name fields h => hr.narrow.1 name fields (hw _ h), fun values h => hr.narrow.2 values (hw _ h)⟩
  exact ⟨⟨fun part h => hr.countableSchema part (hw part h), hr.countable, hr.ordered⟩, fun _ _ => .inl hnarrow⟩

/-- What was stored by a schema that passes its check is read as the value it was, unless
that is not a number and was stored as a text, and then as the one that the text names. -/
theorem decode_of_encode (hs : schema.check = .ok ()) (hr : Representable schema value)
    (hp : Blob.Roomy schema value) (hc : desk.Requested) (hl : later.Requested)
    (he : (encode field schema value desk).1 = .ok stored) (position : Nat) (record : Record) :
    let outcome := decode field position schema (some stored) record later
    outcome.result = .ok (kept schema.carrier value) ∧
      (isTextNan schema.carrier value = false → outcome.result = .ok value) := by
  have hkept : (decode field position schema (some stored) record later).result = .ok (kept schema.carrier value) := by
    cases hn : value.isNull with
    | true =>
        obtain rfl := Datum.eq_null_of_isNull hn
        cases he
        rw [kept_null]
        rfl
    | false =>
        have hd := decides_decode hc.coherent hl.coherent he hn (fits_carrier hs hr) position record
        refine hd.value ?_
        by_cases hk : schema.carrier.kind.isStructured ∨ schema.carrier.kind = .union
        · obtain ⟨bytes, hbytes, -, -⟩ := exists_blob_of_encode hc.coherent he hn hk
          exact Blob.roomy_carrier hs hn ⟨bytes, hbytes⟩ hp
        · exact Blob.roomy_scalar (by simpa using hk)
  refine ⟨hkept, fun hn => ?_⟩
  rw [hkept, kept_eq_self hn]

/-! ### An optional record -/

def optionalMixed : Schema :=
  .union [Blob.mixedSchema, .null]

/-- A record that holds another value where the mixed one belongs. -/
def holder : Record :=
  (Record.fresh ⟨"Holder", [⟨"mixed", optionalMixed, none⟩], rfl⟩).put 0 (.array [.string "old"])

/-- Stored when no decoder was there, and read when a decoder of the same form was. -/
theorem decode_of_encode_mixed :
    let later := (Desk.opened .info).afterRequests [.array .int, Blob.mixedSchema.withoutDefaults]
    ∃ stored, (encode "mixed" optionalMixed Blob.mixedValue (.opened .info)).1 = .ok stored ∧
      (decode "mixed" 0 optionalMixed (some stored) holder later).result = .ok Blob.mixedValue := by
  intro later
  have hb : Blob.encode optionalMixed.carrier Blob.mixedValue = .ok Blob.mixedBytes := by with_unfolding_all rfl
  have hbuild : Decoder.build optionalMixed.carrier 0 = .ok ⟨Blob.mixedSchema, 0⟩ := by with_unfolding_all rfl
  have he : (encode "mixed" optionalMixed Blob.mixedValue (.opened .info)).1 = .ok _ :=
    encode_of_blob DecoderCache.coherent_empty "mixed" rfl hbuild hb
  have hf : [Blob.mixedSchema, .null].find? (Blob.takes · Blob.mixedValue) = some Blob.mixedSchema := rfl
  have hp : Blob.Roomy optionalMixed Blob.mixedValue := (Blob.roomy_union hf).2 Blob.roomy_mixed
  have hr : Representable optionalMixed Blob.mixedValue := ⟨by decide, by decide, by decide, by decide⟩
  obtain ⟨-, h⟩ := decode_of_encode rfl hr hp ⟨.opened .info, .zero, [], rfl⟩
    ⟨.opened .info, .zero, [.array .int, Blob.mixedSchema.withoutDefaults], rfl⟩ he 0 holder
  exact ⟨_, he, h rfl⟩

end Field

end Docket
