import Docket.Proofs.Json.Reading
import Docket.Schema.Canonical
import Docket.Schema.Defaults

/-!
# The canonical form identifies a schema up to defaults

The form's document value tells the kind of its schema, so along the schema every
part can be recovered from it; defaults leave no trace in it. Its numbers are
integers, so the text of the form tells as much as the value does.
-/
namespace Docket.Schema

/-! ### The form as a text -/

mutual

theorem integral_canonicalJson : (s : Schema) → s.canonicalJson.Integral
  | null | boolean | int | long | float | double | string | bytes => .string _
  | enum name symbols => by simp [canonicalJson]
  | fixed name size => by simp [canonicalJson, size.toNat_lt]
  | array items => by simp [canonicalJson, integral_canonicalJson items]
  | map values => by simp [canonicalJson, integral_canonicalJson values]
  | record name fields => by
      have hf := integral_canonicalFields fields
      simpa [canonicalJson] using hf
  | union branches => .array (integral_canonicalBranches branches)

theorem integral_canonicalFields : (fields : List Field) → ∀ item ∈ canonicalFields fields, item.Integral
  | [] => fun item hi => by cases hi
  | ⟨name, schema, default⟩ :: fields => by
      have hs := integral_canonicalJson schema
      have hf := integral_canonicalFields fields
      rw [canonicalFields, List.forall_mem_cons]
      exact ⟨by simp [hs], hf⟩

theorem integral_canonicalBranches : (branches : List Schema) →
    ∀ item ∈ canonicalBranches branches, item.Integral
  | [] => fun item hi => by cases hi
  | branch :: branches =>
      List.forall_mem_cons.2 ⟨integral_canonicalJson branch, integral_canonicalBranches branches⟩

end

/-! ### What the form tells -/

/-- The kind of the schemas that a canonical form stands for. -/
def formKind? : Json → Option Kind
  | .string name => Kind.all.find? (·.name = name)
  | .array _ => some .union
  | .object fields => do
      let name ← (← Entries.find? "type" fields).string?
      Kind.all.find? (·.name = name)
  | _ => none

theorem formKind?_canonicalJson (s : Schema) : formKind? s.canonicalJson = some s.kind := by
  cases s <;> rfl

/-- Schemas of one form are of one kind, so only like is ever compared with like. -/
theorem kind_eq_of_canonicalJson_eq {a b : Schema} (h : a.canonicalJson = b.canonicalJson) :
    a.kind = b.kind := by
  have hk : some a.kind = some b.kind := by
    rw [← formKind?_canonicalJson, ← formKind?_canonicalJson, h]
  exact Option.some.inj hk

/-! ### Defaults leave no trace -/

mutual

theorem canonicalJson_mapDefaults (change : Option Json → Option Json) :
    (s : Schema) → (s.mapDefaults change).canonicalJson = s.canonicalJson
  | null | boolean | int | long | float | double | string | bytes | enum _ _ | fixed _ _ => by
      simp only [mapDefaults]
  | array items => by
      simp only [mapDefaults, canonicalJson, canonicalJson_mapDefaults change items]
  | map values => by
      simp only [mapDefaults, canonicalJson, canonicalJson_mapDefaults change values]
  | record name fields => by
      simp only [mapDefaults, canonicalJson, canonicalFields_mapDefaults change fields]
  | union branches => by
      simp only [mapDefaults, canonicalJson, canonicalBranches_mapDefaults change branches]

theorem canonicalFields_mapDefaults (change : Option Json → Option Json) :
    (fields : List Field) → canonicalFields (mapFieldDefaults change fields) = canonicalFields fields
  | [] => rfl
  | ⟨name, schema, default⟩ :: fields => by
      simp only [mapFieldDefaults, canonicalFields, canonicalJson_mapDefaults change schema,
        canonicalFields_mapDefaults change fields]

theorem canonicalBranches_mapDefaults (change : Option Json → Option Json) :
    (branches : List Schema) → canonicalBranches (mapBranchDefaults change branches) = canonicalBranches branches
  | [] => rfl
  | branch :: branches => by
      simp only [mapBranchDefaults, canonicalBranches, canonicalJson_mapDefaults change branch,
        canonicalBranches_mapDefaults change branches]

end

/-! ### Everything else can be recovered -/

theorem map_string_inj {ss ts : List String} (h : ss.map Json.string = ts.map Json.string) : ss = ts :=
  (List.map_inj_right fun _ _ => Json.string.inj).1 h

mutual

/-- The induction is along one of the two schemas; that the other one is of the
same kind leaves one case for each kind. -/
theorem withoutDefaults_eq_of_canonicalJson_eq : (a : Schema) → ∀ {b : Schema},
    a.canonicalJson = b.canonicalJson → a.withoutDefaults = b.withoutDefaults
  | null, b, h | boolean, b, h | int, b, h | long, b, h | float, b, h | double, b, h | string, b, h
  | bytes, b, h => by
      have hk := kind_eq_of_canonicalJson_eq h
      cases b <;> first | rfl | cases hk
  | enum name symbols, b, h => by
      have hk := kind_eq_of_canonicalJson_eq h
      cases b with
      | enum other others =>
          simp only [canonicalJson, Json.object.injEq, List.cons.injEq, Prod.mk.injEq, true_and, and_true,
            Json.string.injEq, Json.array.injEq] at h
          rw [h.1, map_string_inj h.2]
      | _ => cases hk
  | fixed name size, b, h => by
      have hk := kind_eq_of_canonicalJson_eq h
      cases b with
      | fixed other length =>
          simp only [canonicalJson, Json.object.injEq, List.cons.injEq, Prod.mk.injEq, true_and, and_true,
            Json.string.injEq, Json.ofNat, Json.number.injEq, Json.Number.integer.injEq, Int.natCast_inj] at h
          rw [h.1, UInt64.toNat_inj.1 h.2]
      | _ => cases hk
  | array items, b, h => by
      have hk := kind_eq_of_canonicalJson_eq h
      cases b with
      | array others =>
          simp only [canonicalJson, Json.object.injEq, List.cons.injEq, Prod.mk.injEq, true_and, and_true] at h
          exact congrArg array (withoutDefaults_eq_of_canonicalJson_eq items h)
      | _ => cases hk
  | map values, b, h => by
      have hk := kind_eq_of_canonicalJson_eq h
      cases b with
      | map others =>
          simp only [canonicalJson, Json.object.injEq, List.cons.injEq, Prod.mk.injEq, true_and, and_true] at h
          exact congrArg map (withoutDefaults_eq_of_canonicalJson_eq values h)
      | _ => cases hk
  | record name fields, b, h => by
      have hk := kind_eq_of_canonicalJson_eq h
      cases b with
      | record other others =>
          simp only [canonicalJson, Json.object.injEq, List.cons.injEq, Prod.mk.injEq, true_and, and_true,
            Json.string.injEq, Json.array.injEq] at h
          have hf := mapFieldDefaults_eq_of_canonicalFields_eq fields h.1
          simp only [withoutDefaults, mapDefaults, h.2, hf]
      | _ => cases hk
  | union branches, b, h => by
      have hk := kind_eq_of_canonicalJson_eq h
      cases b with
      | union others =>
          exact congrArg union (mapBranchDefaults_eq_of_canonicalBranches_eq branches (Json.array.inj h))
      | _ => cases hk

theorem mapFieldDefaults_eq_of_canonicalFields_eq : (fields : List Field) → ∀ {others : List Field},
    canonicalFields fields = canonicalFields others →
      mapFieldDefaults (fun _ => none) fields = mapFieldDefaults (fun _ => none) others
  | [], [], _ => rfl
  | [], ⟨_, _, _⟩ :: _, h => by cases h
  | ⟨_, _, _⟩ :: _, [], h => by cases h
  | ⟨name, schema, default⟩ :: fields, ⟨other, otherSchema, _⟩ :: others, h => by
      obtain ⟨hfield, hrest⟩ := List.cons.inj h
      simp only [Json.object.injEq, List.cons.injEq, Prod.mk.injEq, true_and, and_true, Json.string.injEq] at hfield
      have hs : schema.withoutDefaults = otherSchema.withoutDefaults :=
        withoutDefaults_eq_of_canonicalJson_eq schema hfield.2
      have hf := mapFieldDefaults_eq_of_canonicalFields_eq fields hrest
      rw [withoutDefaults, withoutDefaults] at hs
      simp only [mapFieldDefaults, hfield.1, hs, hf]

theorem mapBranchDefaults_eq_of_canonicalBranches_eq : (branches : List Schema) → ∀ {others : List Schema},
    canonicalBranches branches = canonicalBranches others →
      mapBranchDefaults (fun _ => none) branches = mapBranchDefaults (fun _ => none) others
  | [], [], _ => rfl
  | [], _ :: _, h => by cases h
  | _ :: _, [], h => by cases h
  | branch :: branches, other :: others, h => by
      obtain ⟨hbranch, hrest⟩ := List.cons.inj h
      have hs : branch.withoutDefaults = other.withoutDefaults :=
        withoutDefaults_eq_of_canonicalJson_eq branch hbranch
      have hf := mapBranchDefaults_eq_of_canonicalBranches_eq branches hrest
      rw [withoutDefaults, withoutDefaults] at hs
      simp only [mapBranchDefaults, hs, hf]

end

theorem canonicalJson_eq_of_withoutDefaults_eq {a b : Schema} (h : a.withoutDefaults = b.withoutDefaults) :
    a.canonicalJson = b.canonicalJson := by
  rw [← canonicalJson_mapDefaults (fun _ => none) a, ← canonicalJson_mapDefaults (fun _ => none) b]
  exact congrArg canonicalJson h

/-- The form's text tells as much as its document value. -/
theorem canonicalForm_inj {a b : Schema} : a.canonicalForm = b.canonicalForm ↔ a.canonicalJson = b.canonicalJson :=
  ⟨Json.eq_of_text_eq (integral_canonicalJson a) (integral_canonicalJson b), congrArg Json.text⟩

theorem withoutDefaults_eq_of_canonicalForm_eq {a b : Schema} (h : a.canonicalForm = b.canonicalForm) :
    a.withoutDefaults = b.withoutDefaults :=
  withoutDefaults_eq_of_canonicalJson_eq a (canonicalForm_inj.1 h)

theorem canonicalForm_eq_of_withoutDefaults_eq {a b : Schema} (h : a.withoutDefaults = b.withoutDefaults) :
    a.canonicalForm = b.canonicalForm :=
  canonicalForm_inj.2 (canonicalJson_eq_of_withoutDefaults_eq h)

/-- Two schemas have one canonical form exactly when they are equal once the default
of every field at every depth is dropped. -/
theorem canonicalForm_eq_iff (a b : Schema) :
    a.canonicalForm = b.canonicalForm ↔ a.withoutDefaults = b.withoutDefaults := by
  constructor
  · exact withoutDefaults_eq_of_canonicalForm_eq
  · exact canonicalForm_eq_of_withoutDefaults_eq

end Docket.Schema
