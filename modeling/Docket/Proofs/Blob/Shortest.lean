import Docket.Proofs.Blob.Compact
import Docket.Proofs.Blob.Scalar
import Docket.Proofs.Blob.Spelling
import Docket.Proofs.Schema.Rules

/-!
# The shortest blob of a schema

How short a blob can be is told along the schema: the fields of a record are as short as
each of them can be, and a union is as short as one of its branches, behind the place of
that branch. No blob is shorter, and by a schema that keeps its rules one is as short.
-/
namespace Docket

namespace Schema

/-- The length of something behind the place of a branch. -/
def behind (place length : Nat) : Nat :=
  (Blob.Varint.encodeNat place).length + length

mutual

/-- The length of the shortest blob. -/
def shortest : Schema → Nat
  | record _ fields => fieldsShortest fields
  | union branches => ((branchesShortest branches).zipIdx.map fun (length, place) => behind place length).min?.getD 0
  | s => s.span

def fieldsShortest : List Field → Nat
  | [] => 0
  | ⟨_, schema, _⟩ :: rest => schema.shortest + fieldsShortest rest

def branchesShortest : List Schema → List Nat
  | [] => []
  | branch :: rest => branch.shortest :: branchesShortest rest

end

theorem branchesShortest_eq (branches : List Schema) : branchesShortest branches = branches.map shortest := by
  induction branches with
  | nil => rfl
  | cons branch branches ih => rw [branchesShortest, ih, List.map_cons]

theorem mem_zipIdx_map_iff {α : Type} {f : Schema → α} {branches : List Schema} {x : α} {index : Nat} :
    (x, index) ∈ (branches.map f).zipIdx ↔ ∃ branch, branches[index]? = some branch ∧ f branch = x := by
  rw [List.mem_zipIdx_iff_getElem?, List.getElem?_map, Option.map_eq_some_iff]

theorem mem_shortest_behind_iff {branches : List Schema} {n : Nat} :
    n ∈ ((branchesShortest branches).zipIdx.map fun (length, place) => behind place length) ↔
      ∃ index branch, branches[index]? = some branch ∧ behind index branch.shortest = n := by
  rw [branchesShortest_eq, List.mem_map]
  constructor
  · rintro ⟨⟨length, index⟩, hm, rfl⟩
    obtain ⟨branch, hb, rfl⟩ := mem_zipIdx_map_iff.1 hm
    exact ⟨index, branch, hb, rfl⟩
  · rintro ⟨index, branch, hb, rfl⟩
    exact ⟨(branch.shortest, index), mem_zipIdx_map_iff.2 ⟨branch, hb, rfl⟩, rfl⟩

theorem shortest_union_le {branches : List Schema} {index : Nat} {branch : Schema}
    (hb : branches[index]? = some branch) : (union branches).shortest ≤ behind index branch.shortest :=
  List.min?_getD_le_of_mem (mem_shortest_behind_iff.2 ⟨index, branch, hb, rfl⟩)

theorem exists_shortest_union {branches : List Schema} (hn : branches ≠ []) :
    ∃ index branch, branches[index]? = some branch ∧ (union branches).shortest = behind index branch.shortest := by
  obtain ⟨first, rest, rfl⟩ := List.exists_cons_of_ne_nil hn
  rw [shortest]
  cases hm : ((branchesShortest (first :: rest)).zipIdx.map fun (length, place) => behind place length).min? with
  | none =>
      rw [List.min?_eq_none_iff] at hm
      cases hm
  | some length =>
      obtain ⟨index, branch, hb, hl⟩ := mem_shortest_behind_iff.1 (List.min?_mem hm)
      exact ⟨index, branch, hb, hl.symm⟩

end Schema

namespace Blob

variable {s : Schema} {bytes head : List UInt8} {value : Datum}

/-! ### Places -/

/-- So many groups of seven bits are enough for a number below a power of 128. -/
theorem Varint.length_groups_le {n count : Nat} (h : n < 128 ^ (count + 1)) : (groups n).length ≤ count + 1 := by
  induction count generalizing n with
  | zero =>
      rw [groups, if_pos (by simpa using h)]
      exact Nat.le_refl 1
  | succ count ih =>
      rw [groups]
      split
      · exact Nat.le_add_left 1 _
      · have hrest : n / 128 < 128 ^ (count + 1) := by
          rw [Nat.div_lt_iff_lt_mul (by decide), ← Nat.pow_succ]
          exact h
        exact Nat.succ_le_succ (ih hrest)

/-- Bytes of which a place is read spell twice its number, as far as 64 bits hold it. -/
theorem Varint.spelled_of_yields {n : Nat} (h : Yields readNat head n) : spelled head % 2 ^ 64 = 2 * n := by
  have hread : Takes read fun bytes value => value.toInt = unfold (spelled bytes % 2 ^ 64) := by
    intro c c' value hv
    obtain ⟨bytes, ⟨-, hv⟩, hrest, -⟩ := read_eq_ok_iff.1 hv
    exact ⟨bytes, hrest, hv⟩
  have hnat : Takes readNat fun bytes n => unfold (spelled bytes % 2 ^ 64) = .ofNat n := by
    refine hread.bind fun {bytes value} hv => ?_
    split
    · rename_i hn
      exact takes_pure (by rw [List.append_nil, ← hv, hn])
    · exact takes_fail _
  have hunfold := congrArg fold (hnat.of_yields h)
  rwa [fold_unfold, fold] at hunfold

/-- A place is not read of fewer bytes than it is written in. -/
theorem Varint.length_encodeNat_le {n : Nat} (h : Yields readNat head n) : (encodeNat n).length ≤ head.length := by
  obtain ⟨b, rest, rfl⟩ := List.exists_cons_of_length_pos (takes_readNat.of_yields h).length_le
  have hlow := spelled_of_yields h
  have hlt := spelled_lt (b :: rest)
  have hn : n < 2 ^ 63 := by omega
  rw [encodeNat, encode, toInt_ofNat hn, fold]
  exact length_groups_le (Nat.lt_of_le_of_lt (by omega) hlt)

/-! ### No blob is shorter -/

theorem fieldsShortest_le {fields : List Field} {row : List (List UInt8 × Datum)} (h : Fields Decoded fields row)
    (hf : ∀ field ∈ fields, ∀ {bytes value}, Decoded field.schema bytes value → field.schema.shortest ≤ bytes.length) :
    Schema.fieldsShortest fields ≤ (joined row).length := by
  induction h with
  | nil => exact Nat.le_refl 0
  | @cons field part fields row hd hrow ih =>
      obtain ⟨name, schema, default⟩ := field
      obtain ⟨hfield, hrest⟩ := List.forall_mem_cons.1 hf
      rw [Schema.fieldsShortest, joined_cons, List.length_append]
      exact Nat.add_le_add (hfield hd) (ih hrest)

theorem shortest_le (h : Decoded s bytes value) : s.shortest ≤ bytes.length := by
  induction s using Schema.children_induction generalizing bytes value with
  | step s ih =>
    cases s with
    | record name fields =>
        obtain ⟨row, hrow, rfl, -⟩ := decode_record_eq_ok_iff.1 h
        exact fieldsShortest_le hrow fun field hf _ _ => ih field.schema (List.mem_map_of_mem hf)
    | union branches =>
        obtain ⟨head, body, index, branch, rfl, hh, hb, hbody⟩ := decode_union_eq_ok_iff.1 h
        rw [List.length_append]
        refine Nat.le_trans (Schema.shortest_union_le hb) ?_
        exact Nat.add_le_add (Varint.length_encodeNat_le hh) (ih branch (List.mem_of_getElem? hb) hbody)
    | _ => exact span_le_of_decode h

/-! ### One blob is as short -/

theorem decoded_of_yields (h : Yields (readDatum .everyBlock s .null) bytes value) : Decoded s bytes value := by
  have hy := h 0 []
  rw [List.append_nil] at hy
  exact decode_eq_ok_iff.2 ⟨_, hy⟩

/-- The schema has a blob as short as possible. -/
def Attained (s : Schema) : Prop :=
  ∃ bytes value, Decoded s bytes value ∧ bytes.length = s.shortest

theorem exists_fields {fields : List Field} (h : ∀ field ∈ fields, Attained field.schema) :
    ∃ row, Fields Decoded fields row ∧ (joined row).length = Schema.fieldsShortest fields := by
  induction fields with
  | nil => exact ⟨[], .nil, rfl⟩
  | cons field fields ih =>
      obtain ⟨name, schema, default⟩ := field
      obtain ⟨hfield, hrest⟩ := List.forall_mem_cons.1 h
      obtain ⟨bytes, value, hd, hlen⟩ := hfield
      obtain ⟨row, hrow, hlens⟩ := ih hrest
      refine ⟨(bytes, value) :: row, .cons hd hrow, ?_⟩
      rw [joined_cons, List.length_append, hlen, hlens, Schema.fieldsShortest]

theorem attained (hs : s.Sound) (hc : s.Countable) : Attained s := by
  induction s using Schema.children_induction with
  | step s ih =>
    have hchild : ∀ child ∈ s.children, Attained child :=
      fun child hm => ih child hm (hs.child hm) (Schema.Everywhere.child hc hm)
    cases s with
    | null => exact ⟨[], .null, rfl, rfl⟩
    | boolean => exact ⟨[0], .boolean false, rfl, rfl⟩
    | int => exact ⟨[0], .int 0, rfl, rfl⟩
    | long => exact ⟨[0], .long 0, rfl, rfl⟩
    | float => exact ⟨[0, 0, 0, 0], .float 0, rfl, rfl⟩
    | double => exact ⟨[0, 0, 0, 0, 0, 0, 0, 0], .double 0, rfl, rfl⟩
    | string => exact ⟨[0], .string "", rfl, rfl⟩
    | bytes => exact ⟨[0], .bytes [], rfl, rfl⟩
    | enum name symbols =>
        obtain ⟨symbol, rest, rfl⟩ := List.exists_cons_of_ne_nil (hs _ (.self _)).1
        exact ⟨[0], .enum symbol, rfl, rfl⟩
    | fixed name size =>
        have hy := (yields_slice (List.replicate size.toNat 0)).map Datum.fixed
        rw [List.length_replicate] at hy
        exact ⟨_, _, decoded_of_yields hy, List.length_replicate⟩
    | array items => exact ⟨[0], .array [], rfl, rfl⟩
    | map values => exact ⟨[0], .map [], rfl, rfl⟩
    | record name fields =>
        obtain ⟨row, hrow, hlen⟩ := exists_fields fun field hf => hchild field.schema (List.mem_map_of_mem hf)
        exact ⟨joined row, _, decode_record_eq_ok_iff.2 ⟨row, hrow, rfl, rfl⟩, hlen⟩
    | union branches =>
        have htwo : 2 ≤ branches.length := (hs _ (.self _)).1
        obtain ⟨index, branch, hb, hleast⟩ :=
          Schema.exists_shortest_union (List.ne_nil_of_length_pos (by omega : 0 < branches.length))
        obtain ⟨body, value, hd, hlen⟩ := hchild branch (List.mem_of_getElem? hb)
        have hcount : branches.length < 2 ^ 63 := hc _ (.self _) _ (List.mem_singleton_self _)
        have hindex : index < branches.length := (List.getElem?_eq_some_iff.1 hb).1
        have hplace := Varint.yields_readNat (Nat.lt_trans hindex hcount)
        refine ⟨Varint.encodeNat index ++ body, value,
          decode_union_eq_ok_iff.2 ⟨_, body, index, branch, rfl, hplace, hb, hd⟩, ?_⟩
        rw [List.length_append, hlen, hleast, Schema.behind]

end Blob

end Docket
