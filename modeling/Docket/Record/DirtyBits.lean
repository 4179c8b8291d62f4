/-!
# Marks on positions

One bit for each position of a record, packed into words of 64 bits. Positions
beyond the last are never marked, and the bits of the last word that stand for no
position stay zero, so two sets of one length are equal when they mark the same
positions.
-/
namespace Docket

structure DirtyBits where
  length : Nat
  words : List UInt64
  /-- The words have room for every position. -/
  sized : words.length = (length + 63) / 64
  deriving DecidableEq

namespace DirtyBits

def clean (length : Nat) : DirtyBits :=
  ⟨length, List.replicate ((length + 63) / 64) 0, List.length_replicate⟩

def bit (place : Nat) : UInt64 :=
  (1 : UInt64) <<< UInt64.ofNat place

/-- Marks a position; positions out of range are passed over. -/
def set (d : DirtyBits) (position : Nat) : DirtyBits :=
  if position < d.length then
    ⟨d.length, d.words.modify (position / 64) (· ||| bit (position % 64)), by
      rw [List.length_modify]; exact d.sized⟩
  else d

def get (d : DirtyBits) (position : Nat) : Bool :=
  position < d.length && (d.words.getD (position / 64) 0 &&& bit (position % 64)) ≠ 0

def any (d : DirtyBits) : Bool :=
  d.words.any (· ≠ 0)

def ones (word : UInt64) : Nat :=
  (List.range 64).countP fun place => (word &&& bit place) ≠ 0

def count (d : DirtyBits) : Nat :=
  d.words.foldr (fun word n => ones word + n) 0

def clear (d : DirtyBits) : DirtyBits :=
  ⟨d.length, d.words.map fun _ => 0, by rw [List.length_map]; exact d.sized⟩

@[simp] theorem length_clean (length : Nat) : (clean length).length = length := rfl

@[simp] theorem length_set (d : DirtyBits) (position : Nat) : (d.set position).length = d.length := by
  unfold set
  split <;> rfl

@[simp] theorem length_clear (d : DirtyBits) : d.clear.length = d.length := rfl

/-- Clearing leaves nothing of what was marked. -/
theorem clear_eq_clean (d : DirtyBits) : d.clear = clean d.length := by
  simp [clear, clean, d.sized, List.map_const']

def positions (d : DirtyBits) : List Nat :=
  (List.range d.length).filter d.get

end DirtyBits

end Docket
