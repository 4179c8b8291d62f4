import Docket.Proofs.Blob.Reading

/-!
# What a reader takes off the front

A reader goes from front to back: what it reads is a stretch of bytes at the front
of its input, and it would read the same of every input that begins with them. Where
it looks further ahead, bytes behind the stretch can only let it pass. How long the
stretch is at least is told along with it.
-/
namespace Docket.Blob

variable {α β : Type} {r r' : Read α} {f f' : α → Read β} {P Q : List UInt8 → α → Prop} {m n : Nat}

/-- The bytes that the reader takes off the front, and the value it gives for them,
have the property. -/
def Takes (r : Read α) (P : List UInt8 → α → Prop) : Prop :=
  ∀ ⦃c c' : Cursor⦄ ⦃x : α⦄, r c = .ok (x, c') → ∃ taken, c.rest = taken ++ c'.rest ∧ P taken x

theorem takes_pure {x : α} (h : P [] x) : Takes (pure x) P := by
  intro c c' y hy
  cases hy
  exact ⟨[], rfl, h⟩

theorem takes_fail (fault : Fault) : Takes (Read.fail fault) P := by
  intro c c' x h
  cases h

theorem Takes.imp (hr : Takes r P) (h : ∀ {bytes x}, P bytes x → Q bytes x) : Takes r Q := by
  intro c c' x hx
  obtain ⟨taken, hc, hp⟩ := hr hx
  exact ⟨taken, hc, h hp⟩

/-- The second step takes its bytes behind those of the first. -/
theorem Takes.bind {Q : List UInt8 → β → Prop} (hr : Takes r P)
    (hf : ∀ {a x}, P a x → Takes (f x) fun b y => Q (a ++ b) y) : Takes (r >>= f) Q := by
  intro c c' y h
  obtain ⟨x, between, hx, hy⟩ := ok_of_bind h
  obtain ⟨a, hc, hp⟩ := hr hx
  obtain ⟨b, hb, hq⟩ := hf hp hy
  exact ⟨a ++ b, by rw [hc, hb, List.append_assoc], hq⟩

/-- The bytes are no fewer than a number, and the reader yields the value of them. -/
structure Enough (n : Nat) (r : Read α) (bytes : List UInt8) (value : α) : Prop where
  length_le : n ≤ bytes.length
  yields : Yields r bytes value

theorem Enough.mono {bytes : List UInt8} {x : α} (h : Enough n r bytes x) (hm : m ≤ n) : Enough m r bytes x :=
  ⟨Nat.le_trans hm h.length_le, h.yields⟩

theorem enough_pure (x : α) : Enough 0 (pure x) [] x :=
  ⟨Nat.zero_le _, yields_pure x⟩

theorem Enough.bind {a b : List UInt8} {x : α} {y : β} (ha : Enough m r a x) (hb : Enough n (f x) b y) :
    Enough (m + n) (r >>= f) (a ++ b) y where
  length_le := by
    rw [List.length_append]
    exact Nat.add_le_add ha.length_le hb.length_le
  yields := ha.yields.bind hb.yields

/-- How much is taken at least does not matter. -/
theorem Takes.any (hr : Takes r (Enough n r')) : Takes r (Enough 0 r') :=
  hr.imp fun h => h.mono (Nat.zero_le n)

/-- Whether one reader takes what another one yields is told step by step; what the
first step takes is enough for both. -/
theorem takes_bind (hr : Takes r (Enough m r')) (hf : ∀ x, Takes (f x) (Enough 0 (f' x))) :
    Takes (r >>= f) (Enough m (r' >>= f')) :=
  hr.bind fun ha => (hf _).imp fun hb => ha.bind hb

theorem takes_map (hr : Takes r (Enough n r')) (g : α → β) :
    Takes (do return g (← r)) (Enough n (do return g (← r'))) :=
  takes_bind hr fun x => takes_pure (enough_pure (g x))

/-! ### Bytes and integers -/

theorem takes_byte : Takes byte (Enough 1 byte) := by
  intro c c' b h
  obtain ⟨offset, rest⟩ := c
  cases rest with
  | nil => cases h
  | cons _ rest =>
      cases h
      exact ⟨[b], rfl, Nat.le_refl 1, yields_byte b⟩

theorem takes_slice (count : Nat) : Takes (slice count) (Enough count (slice count)) := by
  intro c c' bytes h
  simp only [slice, shorter_eq] at h
  split at h
  · cases h
  · rename_i hl
    cases h
    have hle : count ≤ c.rest.length := by simpa using hl
    have hlen : (c.rest.take count).length = count := List.length_take_of_le hle
    have hy := yields_slice (c.rest.take count)
    rw [hlen] at hy
    exact ⟨_, (List.take_append_drop count c.rest).symm, Nat.le_of_eq hlen.symm, hy⟩

namespace Varint

theorem takes_readGroups (left place value : Nat) :
    Takes (readGroups left place value) (Enough 1 (readGroups left place value)) := by
  induction left generalizing place value with
  | zero => exact takes_fail .longVarint
  | succ left ih =>
      refine takes_bind takes_byte fun b => ?_
      split
      · exact takes_pure (enough_pure _)
      · exact (ih _ _).any

theorem takes_read : Takes read (Enough 1 read) :=
  takes_map (takes_readGroups 10 0 0) fun n => Int64.ofInt (unfold n)

theorem takes_readInt : Takes readInt (Enough 1 readInt) := by
  refine takes_bind takes_read fun long => ?_
  dsimp only
  split
  · exact takes_pure (enough_pure _)
  · exact takes_fail _

theorem takes_readNat : Takes readNat (Enough 1 readNat) := by
  refine takes_bind takes_read fun value => ?_
  split
  · exact takes_pure (enough_pure _)
  · exact takes_fail _

theorem takes_readCount : Takes readCount (Enough 1 readCount) := by
  refine takes_bind takes_read fun value => ?_
  split
  · exact takes_pure (enough_pure _)
  · exact (takes_bind takes_read fun _ => takes_pure (enough_pure _)).any

end Varint

theorem takes_readBytes : Takes readBytes (Enough 1 readBytes) :=
  takes_bind Varint.takes_readNat fun count => (takes_slice count).any

theorem takes_readText : Takes readText (Enough 1 readText) := by
  refine takes_bind Varint.takes_readNat fun count => (takes_bind (takes_slice count) fun bytes => ?_).any
  split
  · exact takes_pure (enough_pure _)
  · exact takes_fail _

/-- A block that passes is empty of bytes, and keeps the limit of items without width. -/
theorem takes_checkBlock (guard : Guard) (count : Nat) (width : UInt64) (decoded : Nat) :
    Takes (checkBlock guard count width decoded) fun bytes _ =>
      bytes = [] ∧ (width = 0 → count ≤ zeroWidthLimit - decoded) := by
  intro c c' u h
  unfold checkBlock at h
  split at h
  · split at h
    · cases h
    · rename_i hl
      cases h
      exact ⟨[], rfl, rfl, fun _ => Nat.not_lt.1 hl⟩
  · rename_i hw
    split at h
    · cases h
    · cases h
      exact ⟨[], rfl, rfl, fun hz => absurd hz hw⟩

theorem takes_remaining : Takes remaining fun bytes _ => bytes = [] := by
  intro c c' rest h
  cases h
  exact ⟨[], rfl, rfl⟩

/-- What a reader yields of bytes is what it takes of them. -/
theorem Takes.of_yields (hr : Takes r P) {bytes : List UInt8} {x : α} (h : Yields r bytes x) : P bytes x := by
  obtain ⟨taken, hc, hp⟩ := hr (h 0 [])
  simp only [List.append_nil] at hc
  rw [hc]
  exact hp

end Docket.Blob
