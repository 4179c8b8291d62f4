import Docket.Proofs.Blob.Reading

/-!
# An overwritten value leaves no trace

Reading may be given a value to overwrite, of any shape. Its items and entries
travel along while arrays and maps are read, in slots that are not filled yet and
in entries that were not met yet. What was filled and met is all that shows: two
readings that agree on it go on alike, whatever else they carry. By recursion on
the schema the value that is overwritten changes neither the result, nor the
fault, nor where reading ends.
-/
namespace Docket.Blob

variable {α β σ : Type}

/-- The reader does the same whatever value it overwrites. -/
def Forgets (item : Datum → Read Datum) : Prop :=
  ∀ old other, item old = item other

/-- Readers whose results look alike are continued alike by what sees no more than
that look. -/
theorem bind_eq_of_map_eq {view : σ → β} {r s : Read σ} {f g : σ → Read α}
    (h : view <$> r = view <$> s) (hf : ∀ x y, view x = view y → f x = g y) :
    (r >>= f) = (s >>= g) := by
  rw [map_eq_pure_bind, map_eq_pure_bind] at h
  funext c
  have hc := congrFun h c
  cases hr : r c with
  | error fault =>
      rw [bind_of_error hr] at hc ⊢
      cases hs : s c with
      | error other =>
          rw [bind_of_error hs] at hc ⊢
          rw [Except.error.inj hc]
      | ok y =>
          rw [bind_of_ok hs] at hc
          cases hc
  | ok x =>
      rw [bind_of_ok hr] at hc ⊢
      cases hs : s c with
      | error other =>
          rw [bind_of_error hs] at hc
          cases hc
      | ok y =>
          rw [bind_of_ok hs] at hc ⊢
          obtain ⟨hview, hend⟩ := Prod.mk.inj (Except.ok.inj hc)
          rw [hf x.1 y.1 hview, hend]

/-! ### Arrays and maps -/

/-- Slots that are filled alike are filled on alike. -/
theorem map_readItems_eq {item : Datum → Read Datum} (hi : Forgets item) {s t : Slots}
    (h : s.values = t.values) (count : Nat) :
    Slots.values <$> readItems item count s = Slots.values <$> readItems item count t := by
  induction count generalizing s t with
  | zero => rw [readItems, readItems, map_pure, map_pure, h]
  | succ count ih =>
      rw [readItems, readItems, map_bind, map_bind, hi s.next t.next]
      apply bind_congr
      intro value
      apply ih
      rw [Slots.values_fill, Slots.values_fill, h]

theorem map_readPairs_eq {item : Datum → Read Datum} (hi : Forgets item) {p q : Pairs}
    (h : p.read = q.read) (count : Nat) :
    Pairs.read <$> readPairs item count p = Pairs.read <$> readPairs item count q := by
  induction count generalizing p q with
  | zero => rw [readPairs, readPairs, map_pure, map_pure, h]
  | succ count ih =>
      rw [readPairs, readPairs, map_bind, map_bind]
      apply bind_congr
      intro key
      rw [map_bind, map_bind, hi ((Entries.find? key p.old).getD .null) ((Entries.find? key q.old).getD .null)]
      apply bind_congr
      intro value
      apply ih
      rw [Pairs.put, Pairs.put, h]

/-- Blocks are read alike from states that look alike, if the parts of a block are
and if the look tells how many parts were read. -/
theorem map_readBlocks_eq (view : σ → β) (decoded : σ → Nat) {parts : Nat → σ → Read σ} (guard : Guard)
    (width : UInt64) (hd : ∀ s t, view s = view t → decoded s = decoded t)
    (hp : ∀ count s t, view s = view t → view <$> parts count s = view <$> parts count t)
    (bytes : List UInt8) {s t : σ} (h : view s = view t) :
    view <$> readBlocks guard width decoded parts bytes s =
      view <$> readBlocks guard width decoded parts bytes t := by
  induction bytes generalizing s t with
  | nil => rfl
  | cons _ bytes ih =>
      rw [readBlocks, readBlocks, map_bind, map_bind]
      apply bind_congr
      intro count
      split
      · rw [map_pure, map_pure, h]
      · simp only [map_bind, hd s t h]
        apply bind_congr
        intro _
        exact bind_eq_of_map_eq (hp count s t h) fun x y hxy => ih hxy

/-! ### Every schema -/

theorem forgets_array {guard : Guard} {items : Schema} (hi : Forgets (readDatum guard items)) :
    Forgets (readDatum guard (.array items)) := by
  intro old other
  rw [readDatum, readDatum]
  apply bind_congr
  intro rest
  have hb := map_readBlocks_eq Slots.values Slots.filled guard items.width
    (fun s t h => by rw [← Slots.length_values s, ← Slots.length_values t, h])
    (fun count s t h => map_readItems_eq hi h count) rest
    ((Slots.values_reusing old).trans (Slots.values_reusing other).symm)
  exact bind_eq_of_map_eq hb fun s t h => by rw [h]

theorem forgets_map {guard : Guard} {values : Schema} (hv : Forgets (readDatum guard values)) :
    Forgets (readDatum guard (.map values)) := by
  intro old other
  rw [readDatum, readDatum]
  apply bind_congr
  intro rest
  have hb := map_readBlocks_eq Pairs.read Pairs.count guard values.entryWidth
    (fun p q h => by rw [Pairs.count, Pairs.count, h])
    (fun count p q h => map_readPairs_eq hv h count) rest
    ((Pairs.read_reusing old).trans (Pairs.read_reusing other).symm)
  exact bind_eq_of_map_eq hb fun p q h => by rw [h]

mutual

theorem forgets_readDatum (guard : Guard) : (schema : Schema) → Forgets (readDatum guard schema)
  | .null | .boolean | .int | .long | .float | .double | .string | .bytes | .enum _ _ | .fixed _ _ =>
      fun _ _ => by rw [readDatum, readDatum]
  | .array items => forgets_array (forgets_readDatum guard items)
  | .map values => forgets_map (forgets_readDatum guard values)
  | .record _ fields => fun old other => by
      rw [readDatum, readDatum, readFields_eq guard fields (oldFields fields.length old)
        (oldFields fields.length other)]
  | .union branches => fun old other => by
      rw [readDatum, readDatum]
      apply bind_congr
      intro index
      exact readBranch_eq guard branches branches.length index index old other

theorem readFields_eq (guard : Guard) : (fields : List Field) → ∀ old other,
    readFields guard fields old = readFields guard fields other
  | [], _, _ => rfl
  | ⟨_, schema, _⟩ :: fields, old, other => by
      rw [readFields, readFields, forgets_readDatum guard schema (old.headD .null) (other.headD .null),
        readFields_eq guard fields old.tail other.tail]

theorem readBranch_eq (guard : Guard) : (branches : List Schema) → ∀ count index position old other,
    readBranch guard count index branches position old = readBranch guard count index branches position other
  | [], _, _, _, _, _ => rfl
  | branch :: _, _, _, 0, old, other => by
      rw [readBranch, readBranch]
      exact forgets_readDatum guard branch _ _
  | _ :: branches, count, index, position + 1, old, other => by
      rw [readBranch, readBranch]
      exact readBranch_eq guard branches count index position old other

end

/-- Whatever value it overwrites, reading a blob gives the same value or the same error. -/
theorem decode_overwriting (schema : Schema) (bytes : List UInt8) (old other : Datum) :
    decode schema bytes old = decode schema bytes other := by
  rw [decode, decode, decodeWith, decodeWith, forgets_readDatum .everyBlock schema old other]

/-- A longer array, read over by a shorter one. -/
example : decode (.array .string) [2, 2, 97, 0] (.array [.string "x", .string "y", .null]) =
    decode (.array .string) [2, 2, 97, 0] .null :=
  rfl

end Docket.Blob
