import Docket.Blob.Decode
import Docket.Schema.Check
import Docket.Schema.Defaults

/-!
# Defaults do not show in blobs

Whether a schema keeps its rules, what blob a value has and what value a blob holds
are the same whatever the defaults of the fields are. So they are the same for two
schemas that agree up to defaults.
-/
namespace Docket

namespace Schema

variable (change : Option Json → Option Json)

@[simp] theorem kind_mapDefaults (s : Schema) : (s.mapDefaults change).kind = s.kind := by
  cases s <;> rfl

@[simp] theorem length_mapFieldDefaults (fields : List Field) :
    (mapFieldDefaults change fields).length = fields.length := by
  induction fields with
  | nil => rfl
  | cons field fields ih =>
      obtain ⟨_, _, _⟩ := field
      rw [mapFieldDefaults, List.length_cons, List.length_cons, ih]

@[simp] theorem length_mapBranchDefaults (branches : List Schema) :
    (mapBranchDefaults change branches).length = branches.length := by
  induction branches with
  | nil => rfl
  | cons branch branches ih => rw [mapBranchDefaults, List.length_cons, List.length_cons, ih]

@[simp] theorem countNull_mapBranchDefaults (branches : List Schema) :
    (mapBranchDefaults change branches).countP (·.kind = .null) = branches.countP (·.kind = .null) := by
  induction branches with
  | nil => rfl
  | cons branch branches ih =>
      rw [mapBranchDefaults, List.countP_cons, List.countP_cons, ih, kind_mapDefaults]

mutual

@[simp] theorem check_mapDefaults : (s : Schema) → (s.mapDefaults change).check = s.check
  | null | boolean | int | long | float | double | string | bytes | enum _ _ | fixed _ _ | record _ _ => by
      simp only [mapDefaults, check]
  | array items => by simp only [mapDefaults, check, check_mapDefaults items]
  | map values => by simp only [mapDefaults, check, check_mapDefaults values]
  | union branches => by
      simp only [mapDefaults, check, length_mapBranchDefaults, countNull_mapBranchDefaults,
        checkBranches_mapDefaults branches]

theorem checkBranches_mapDefaults : (branches : List Schema) →
    checkBranches (mapBranchDefaults change branches) = checkBranches branches
  | [] => rfl
  | branch :: branches => by
      simp only [mapBranchDefaults, checkBranches, kind_mapDefaults, check_mapDefaults branch,
        checkBranches_mapDefaults branches]

end

theorem checkFields_mapFieldDefaults (record : String) (seen : List String) (fields : List Field) :
    checkFields record seen (mapFieldDefaults change fields) = checkFields record seen fields := by
  induction fields generalizing seen with
  | nil => rfl
  | cons field fields ih =>
      obtain ⟨name, schema, default⟩ := field
      simp only [mapFieldDefaults, checkFields, check_mapDefaults, ih]

mutual

@[simp] theorem width_mapDefaults : (s : Schema) → (s.mapDefaults change).width = s.width
  | null | boolean | int | long | float | double | string | bytes | enum _ _ | fixed _ _ => by simp only [mapDefaults]
  | array _ | map _ | union _ => by simp only [mapDefaults, width]
  | record _ fields => by simp only [mapDefaults, width, fieldsWidth_mapDefaults fields]

theorem fieldsWidth_mapDefaults : (fields : List Field) →
    fieldsWidth (mapFieldDefaults change fields) = fieldsWidth fields
  | [] => rfl
  | ⟨_, schema, _⟩ :: fields => by
      simp only [mapFieldDefaults, fieldsWidth, width_mapDefaults schema, fieldsWidth_mapDefaults fields]

end

end Schema

namespace Blob

open Schema

variable (change : Option Json → Option Json)

@[simp] theorem takes_mapDefaults (s : Schema) (value : Datum) :
    takes (s.mapDefaults change) value = takes s value := by
  cases s with
  | record name fields => cases value with
    | record values => simp only [mapDefaults, takes, length_mapFieldDefaults]
    | _ => rfl
  | _ => cases value <;> rfl

mutual

@[simp] theorem encode_mapDefaults : (s : Schema) → ∀ value, encode (s.mapDefaults change) value = encode s value
  | .null, _ | .boolean, _ | .int, _ | .long, _ | .float, _ | .double, _ | .string, _ | .bytes, _
  | .enum _ _, _ | .fixed _ _, _ => by simp only [mapDefaults]
  | .array items, value => by
      have hi : encode (items.mapDefaults change) = encode items := funext (encode_mapDefaults items)
      cases value <;> simp only [mapDefaults, encode, hi, kind]
  | .map values, value => by
      have hv : encode (values.mapDefaults change) = encode values := funext (encode_mapDefaults values)
      cases value <;> simp only [mapDefaults, encode, hv, kind]
  | .record _ fields, value => by
      cases value <;>
        simp only [mapDefaults, encode, kind, length_mapFieldDefaults, encodeFields_mapDefaults fields]
  | .union branches, value => by simp only [mapDefaults, encode, encodeBranch_mapDefaults branches]

theorem encodeFields_mapDefaults : (fields : List Field) → ∀ values,
    encodeFields (mapFieldDefaults change fields) values = encodeFields fields values
  | [], _ => rfl
  | ⟨_, schema, _⟩ :: fields, [] => rfl
  | ⟨_, schema, _⟩ :: fields, value :: values => by
      simp only [mapFieldDefaults, encodeFields, encode_mapDefaults schema, encodeFields_mapDefaults fields]

theorem encodeBranch_mapDefaults : (branches : List Schema) → ∀ position value,
    encodeBranch (mapBranchDefaults change branches) position value = encodeBranch branches position value
  | [], _, _ => rfl
  | branch :: branches, position, value => by
      simp only [mapBranchDefaults, encodeBranch, takes_mapDefaults, encode_mapDefaults branch,
        encodeBranch_mapDefaults branches]

end

mutual

@[simp] theorem readDatum_mapDefaults (guard : Guard) : (s : Schema) → ∀ old,
    readDatum guard (s.mapDefaults change) old = readDatum guard s old
  | .null, _ | .boolean, _ | .int, _ | .long, _ | .float, _ | .double, _ | .string, _ | .bytes, _
  | .enum _ _, _ | .fixed _ _, _ => by simp only [mapDefaults]
  | .array items, old => by
      have hi : readDatum guard (items.mapDefaults change) = readDatum guard items :=
        funext (readDatum_mapDefaults guard items)
      simp only [mapDefaults, readDatum, hi, width_mapDefaults]
  | .map values, old => by
      have hv : readDatum guard (values.mapDefaults change) = readDatum guard values :=
        funext (readDatum_mapDefaults guard values)
      simp only [mapDefaults, readDatum, hv, entryWidth, width_mapDefaults]
  | .record _ fields, old => by
      simp only [mapDefaults, readDatum, length_mapFieldDefaults, readFields_mapDefaults guard fields]
  | .union branches, old => by
      simp only [mapDefaults, readDatum, length_mapBranchDefaults, readBranch_mapDefaults guard _ _ branches]

theorem readFields_mapDefaults (guard : Guard) : (fields : List Field) → ∀ old,
    readFields guard (mapFieldDefaults change fields) old = readFields guard fields old
  | [], _ => rfl
  | ⟨_, schema, _⟩ :: fields, old => by
      simp only [mapFieldDefaults, readFields, readDatum_mapDefaults guard schema,
        readFields_mapDefaults guard fields]

theorem readBranch_mapDefaults (guard : Guard) (count index : Nat) : (branches : List Schema) → ∀ position old,
    readBranch guard count index (mapBranchDefaults change branches) position old =
      readBranch guard count index branches position old
  | [], _, _ => rfl
  | branch :: _, 0, old => by
      simp only [mapBranchDefaults, readBranch, kind_mapDefaults, readDatum_mapDefaults guard branch]
  | _ :: branches, position + 1, old => by
      simp only [mapBranchDefaults, readBranch, readBranch_mapDefaults guard count index branches]

end

@[simp] theorem decode_mapDefaults (s : Schema) (bytes : List UInt8) (old : Datum) :
    decode (s.mapDefaults change) bytes old = decode s bytes old := by
  simp only [decode, decodeWith, readDatum_mapDefaults]

end Blob

end Docket
