import Docket.Blob.Fault
import Docket.Numeral.Power

/-!
# Integers of variable length

An integer is folded onto the natural numbers, small magnitudes first, and
written in groups of seven bits, least significant first; the top bit of a byte
says that another follows. Ten bytes hold any integer of 64 bits. Of the tenth
byte only the lowest bit has a place; reading drops the others.
-/
namespace Docket.Blob

structure Cursor where
  offset : Nat
  rest : List UInt8
  deriving DecidableEq, Repr

/-- A step of reading: a result and where it ends, or a fault. -/
abbrev Read (α : Type) := StateT Cursor (Except Fault) α

def Cursor.start (bytes : List UInt8) : Cursor := ⟨0, bytes⟩

def Cursor.remaining (c : Cursor) : Nat :=
  c.rest.length

/-- Whether a list has fewer elements than a number, found without counting
those beyond it. -/
def shorter {α : Type} : Nat → List α → Bool
  | 0, _ => false
  | _ + 1, [] => true
  | n + 1, _ :: rest => shorter n rest

theorem shorter_eq {α : Type} (n : Nat) (items : List α) :
    shorter n items = decide (items.length < n) := by
  induction n generalizing items with
  | zero => simp [shorter]
  | succ n ih => cases items <;> simp [shorter, ih]

def Read.fail {α : Type} (fault : Fault) : Read α := fun _ => .error fault

def byte : Read UInt8 := fun c =>
  match c.rest with
  | [] => .error (.shortage 1 c.offset 0)
  | b :: rest => .ok (b, ⟨c.offset + 1, rest⟩)

def slice (count : Nat) : Read (List UInt8) := fun c =>
  if shorter count c.rest then .error (.shortage count c.offset c.remaining)
  else .ok (c.rest.take count, ⟨c.offset + count, c.rest.drop count⟩)

namespace Varint

/-- The natural number of an integer: 0, -1, 1, -2, … become 0, 1, 2, 3, … -/
def fold (value : Int) : Nat :=
  match value with
  | .ofNat n => 2 * n
  | .negSucc n => 2 * n + 1

def unfold (n : Nat) : Int :=
  if n % 2 = 0 then .ofNat (n / 2) else .negSucc (n / 2)

theorem unfold_fold (value : Int) : unfold (fold value) = value := by
  cases value with
  | ofNat n =>
      have even : 2 * n % 2 = 0 := by omega
      have half : 2 * n / 2 = n := by omega
      simp only [fold, unfold, even, half, if_true]
  | negSucc n =>
      have odd : ¬ (2 * n + 1) % 2 = 0 := by omega
      have half : (2 * n + 1) / 2 = n := by omega
      simp only [fold, unfold, odd, half, if_false]

theorem fold_unfold (n : Nat) : fold (unfold n) = n := by
  unfold unfold
  split
  · simp only [fold]
    omega
  · simp only [fold]
    omega

/-- Groups of seven bits, all but the last marked. -/
def groups (n : Nat) : List UInt8 :=
  if n < 128 then [UInt8.ofNat n]
  else UInt8.ofNat (n % 128 + 128) :: groups (n / 128)
termination_by n

def encode (value : Int64) : List UInt8 :=
  groups (fold value.toInt)

def encodeNat (n : Nat) : List UInt8 :=
  encode (Int64.ofNat n)

/-- Reads the groups from `place` on, at most `left` of them, and adds them to
what the groups before them spell. The sum has 64 bits. -/
def readGroups : Nat → Nat → Nat → Read Nat
  | 0, _, _ => Read.fail .longVarint
  | left + 1, place, value => do
      let b ← byte
      let value := (value + b.toNat % 128 * 2 ^ place) % 2 ^ 64
      if b < 128 then pure value else readGroups left (place + 7) value

def read : Read Int64 := do
  let n ← readGroups 10 0 0
  pure (Int64.ofInt (unfold n))

def readInt : Read Int32 := do
  let long ← read
  let value := long.toInt
  if -2 ^ 31 ≤ value ∧ value < 2 ^ 31 then pure (Int32.ofInt value) else Read.fail (.intRange value)

def readNat : Read Nat := do
  let value ← read
  match value.toInt with
  | .ofNat n => pure n
  | .negSucc n => Read.fail (.negativeLength (.negSucc n))

/-- Reads the count of the next block. After a negative count stands the size of
the block in bytes, which says nothing new; the count is the magnitude. -/
def readCount : Read Nat := do
  let value ← read
  match value.toInt with
  | .ofNat n => pure n
  | .negSucc n => do
      let _ ← read
      pure (n + 1)

end Varint

end Docket.Blob
