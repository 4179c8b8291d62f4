import Docket.Proofs.Blob.Forms

/-!
# What the guard of blocks changes

The count of a block is held against the bytes that remain before any of its items is
read. Without that, items without width apart, reading goes on into the block and fails
there, since every item takes up its width. So the guard decides nothing about what can
be read: it only stops at the block where reading would have failed behind its count.
-/
namespace Docket.Blob

variable {α β σ : Type} {r r' : Read α} {f f' : α → Read β}

/-- The first reader does what the second one does, or it has stopped at a block that
does not fit the bytes that remain. -/
def Anticipates (r r' : Read α) : Prop :=
  ∀ c, r c = r' c ∨
    ∃ count width remaining, remaining < count * width ∧ r c = .error (.heavyBlock count width remaining)

theorem anticipates_self (r : Read α) : Anticipates r r :=
  fun _ => .inl rfl

theorem Anticipates.bind (hr : Anticipates r r') (hf : ∀ x, Anticipates (f x) (f' x)) :
    Anticipates (r >>= f) (r' >>= f') := by
  intro c
  rcases hr c with h | ⟨count, width, remaining, hlt, h⟩
  · cases hr' : r' c with
    | error fault => exact .inl (by rw [bind_of_error (h.trans hr'), bind_of_error hr'])
    | ok result =>
        obtain ⟨x, c'⟩ := result
        rw [bind_of_ok (h.trans hr'), bind_of_ok hr']
        exact hf x c'
  · exact .inr ⟨count, width, remaining, hlt, bind_of_error h⟩

/-- Items without width are limited in both ways. -/
theorem anticipates_checkBlock (count : Nat) (width : UInt64) (decoded : Nat) :
    Anticipates (checkBlock .everyBlock count width decoded) (checkBlock .weightlessOnly count width decoded) := by
  intro c
  unfold checkBlock
  by_cases hw : width = 0
  · rw [if_pos hw, if_pos hw]
    exact .inl rfl
  · have hpass : ¬(Guard.weightlessOnly = .everyBlock ∧ shorter (count * width.toNat) c.rest) :=
      fun h => Guard.noConfusion h.1
    rw [if_neg hw, if_neg hw, if_neg hpass]
    by_cases hs : shorter (count * width.toNat) c.rest = true
    · rw [if_pos ⟨rfl, hs⟩]
      rw [shorter_eq, decide_eq_true_eq] at hs
      exact .inr ⟨count, width.toNat, c.remaining, hs, rfl⟩
    · rw [if_neg fun h => hs h.2]
      exact .inl rfl

section

variable {item item' : Datum → Read Datum}

theorem anticipates_readItems (hi : ∀ old, Anticipates (item old) (item' old)) (count : Nat) (slots : Slots) :
    Anticipates (readItems item count slots) (readItems item' count slots) := by
  induction count generalizing slots with
  | zero => exact anticipates_self _
  | succ count ih => exact (hi _).bind fun value => ih _

theorem anticipates_readPairs (hi : ∀ old, Anticipates (item old) (item' old)) (count : Nat) (pairs : Pairs) :
    Anticipates (readPairs item count pairs) (readPairs item' count pairs) := by
  induction count generalizing pairs with
  | zero => exact anticipates_self _
  | succ count ih => exact (anticipates_self readText).bind fun key => (hi _).bind fun value => ih _

end

theorem anticipates_readBlocks {width : UInt64} {decoded : σ → Nat} {parts parts' : Nat → σ → Read σ}
    (hp : ∀ count state, Anticipates (parts count state) (parts' count state)) (fuel : List UInt8) (state : σ) :
    Anticipates (readBlocks .everyBlock width decoded parts fuel state)
      (readBlocks .weightlessOnly width decoded parts' fuel state) := by
  induction fuel generalizing state with
  | nil => exact anticipates_self _
  | cons _ fuel ih =>
      refine (anticipates_self Varint.readCount).bind fun count => ?_
      split
      · exact anticipates_self _
      · exact (anticipates_checkBlock _ _ _).bind fun _ => (hp count state).bind fun state => ih state

/-- Reading by the schema with the guard anticipates reading by it without. -/
def Guarded (s : Schema) : Prop :=
  ∀ old, Anticipates (readDatum .everyBlock s old) (readDatum .weightlessOnly s old)

theorem anticipates_readFields {fields : List Field} (hf : ∀ field ∈ fields, Guarded field.schema) (old : List Datum) :
    Anticipates (readFields .everyBlock fields old) (readFields .weightlessOnly fields old) := by
  induction fields generalizing old with
  | nil => exact anticipates_self _
  | cons field fields ih =>
      obtain ⟨name, schema, default⟩ := field
      obtain ⟨hhead, hrest⟩ := List.forall_mem_cons.1 hf
      exact (hhead _).bind fun first => (ih hrest _).bind fun others => anticipates_self _

theorem anticipates_readBranch {branches : List Schema} (hb : ∀ branch ∈ branches, Guarded branch)
    (count index position : Nat) (old : Datum) :
    Anticipates (readBranch .everyBlock count index branches position old)
      (readBranch .weightlessOnly count index branches position old) := by
  induction branches generalizing position with
  | nil => exact anticipates_self _
  | cons branch branches ih =>
      obtain ⟨hhead, hrest⟩ := List.forall_mem_cons.1 hb
      cases position with
      | zero => exact hhead _
      | succ position => exact ih hrest position

theorem guarded (s : Schema) : Guarded s := by
  induction s using Schema.children_induction with
  | step s ih =>
    intro old
    cases s with
    | array items =>
        have hitem := ih items (List.mem_singleton_self _)
        refine (anticipates_self remaining).bind fun rest => ?_
        exact (anticipates_readBlocks (anticipates_readItems hitem) _ _).bind fun slots => anticipates_self _
    | map values =>
        have hvalue := ih values (List.mem_singleton_self _)
        refine (anticipates_self remaining).bind fun rest => ?_
        exact (anticipates_readBlocks (anticipates_readPairs hvalue) _ _).bind fun pairs => anticipates_self _
    | record name fields =>
        have hfields := anticipates_readFields (List.forall_mem_map.1 ih) (oldFields fields.length old)
        exact hfields.bind fun values => anticipates_self _
    | union branches =>
        exact (anticipates_self Varint.readNat).bind fun index => anticipates_readBranch ih _ _ _ _
    | _ => exact anticipates_self _

/-- What is decoded is decoded without the guard as well, to the same value, and nothing
else is: every item of a block takes up its width, so a block that does not fit cannot be
read to its end. Where the guard changes the result, it replaces the fault of reading
into such a block by that of the block. -/
theorem decode_unguarded (s : Schema) (bytes : List UInt8) (old : Datum) :
    (∀ value, decode s bytes old = .ok value ↔ decodeWith .weightlessOnly s bytes old = .ok value) ∧
      (decodeWith .everyBlock s bytes old = decodeWith .weightlessOnly s bytes old ∨
        ∃ count width remaining fault, remaining < count * width ∧
          decodeWith .everyBlock s bytes old = .error (.heavyBlock count width remaining) ∧
          decodeWith .weightlessOnly s bytes old = .error fault) := by
  have same : ∀ value, decode s bytes old = .ok value ↔ decodeWith .weightlessOnly s bytes old = .ok value :=
    fun value => decode_eq_ok_iff_blobs.trans decodeWith_eq_ok_iff_blobs.symm
  refine ⟨same, ?_⟩
  rcases guarded s old (.start bytes) with h | ⟨count, width, remaining, hlt, h⟩
  · exact .inl (by rw [decodeWith, decodeWith, h])
  · have hguarded : decodeWith .everyBlock s bytes old = .error (.heavyBlock count width remaining) := by
      rw [decodeWith, h]
    refine .inr ?_
    cases hw : decodeWith .weightlessOnly s bytes old with
    | error fault => exact ⟨count, width, remaining, fault, hlt, hguarded, rfl⟩
    | ok value =>
        -- a value read to the end would have been read with the guard, too
        have hok := decode_eq_ok_iff_everyBlock.1 ((same value).2 hw)
        rw [hguarded] at hok
        cases hok

/-- Of two doubles the second is a byte short. Without the guard the first one is read. -/
example : decodeWith .everyBlock (.array .double) (4 :: List.replicate 15 0) .null = .error (.heavyBlock 2 8 15) ∧
    decodeWith .weightlessOnly (.array .double) (4 :: List.replicate 15 0) .null = .error (.shortage 8 9 7) :=
  ⟨rfl, rfl⟩

end Docket.Blob
