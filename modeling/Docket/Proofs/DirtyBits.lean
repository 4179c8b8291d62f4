import Docket.Numeral.Power
import Docket.Record.DirtyBits
import Mathlib.Data.Nat.Bitwise

/-!
# Packed marks are a set of positions

A word of 64 bits tells of each of its places whether it is marked, and is told by
that. So the words of a bit set are a set of positions, of any size: marking adds one
position, clearing removes all. No operation ever marks a place behind the last
position, and therefore counting ones counts the marked positions, a word other than
zero means that there is one, and the words are the same when the positions are.
-/
namespace Docket.DirtyBits

/-! ### One word -/

theorem toNat_bit {place : Nat} (h : place < 64) : (bit place).toNat = 2 ^ place := by
  have hp : (UInt64.ofNat place).toNat % 64 = place := by
    rw [UInt64.toNat_ofNat', Nat.mod_eq_of_lt (Nat.lt_trans h (by decide)), Nat.mod_eq_of_lt h]
  rw [bit, UInt64.toNat_shiftLeft, hp, UInt64.toNat_one, Nat.shiftLeft_eq, Nat.one_mul]
  exact Nat.mod_eq_of_lt (Nat.pow_lt_pow_right (by decide) h)

theorem and_bit_ne_zero (word : UInt64) {place : Nat} (h : place < 64) :
    (word &&& bit place) ≠ 0 ↔ word.toNat.testBit place = true := by
  rw [Ne, ← UInt64.toNat_inj, UInt64.toNat_and, toNat_bit h, UInt64.toNat_zero, Nat.and_two_pow]
  cases word.toNat.testBit place with
  | false => simp
  | true => simp

theorem testBit_or_bit (word : UInt64) {place : Nat} (h : place < 64) (other : Nat) :
    (word ||| bit place).toNat.testBit other = (word.toNat.testBit other || decide (place = other)) := by
  rw [UInt64.toNat_or, toNat_bit h, Nat.testBit_or, Nat.testBit_two_pow]

theorem testBit_of_le (word : UInt64) {place : Nat} (h : 64 ≤ place) : word.toNat.testBit place = false :=
  Nat.testBit_lt_two_pow (Nat.lt_of_lt_of_le word.toNat_lt (Nat.pow_le_pow_right (by decide) h))

theorem exists_testBit {word : UInt64} (h : word ≠ 0) : ∃ place, place < 64 ∧ word.toNat.testBit place = true := by
  have hn : word.toNat ≠ 0 := fun hz => h (UInt64.toNat_inj.1 hz)
  obtain ⟨place, hp⟩ := Nat.exists_testBit_of_ne_zero hn
  refine ⟨place, Nat.not_le.1 fun hl => ?_, hp⟩
  rw [testBit_of_le word hl] at hp
  cases hp

theorem ones_eq (word : UInt64) : ones word = (List.range 64).countP word.toNat.testBit := by
  refine List.countP_congr fun place hm => ?_
  rw [decide_eq_true_iff, and_bit_ne_zero word (List.mem_range.1 hm)]

/-! ### The words of a set -/

/-- Whether the bit of a position is one, also behind the last position. -/
def lit (words : List UInt64) (position : Nat) : Bool :=
  (words.getD (position / 64) 0).toNat.testBit (position % 64)

theorem lit_of_le {words : List UInt64} {position : Nat} (h : 64 * words.length ≤ position) :
    lit words position = false := by
  have hout : words.length ≤ position / 64 := by omega
  rw [lit, List.getD_eq_default _ _ hout]
  exact Nat.zero_testBit _

theorem lit_cons (word : UInt64) (words : List UInt64) (place : Nat) :
    lit (word :: words) (64 + place) = lit words place := by
  have hd : (64 + place) / 64 = place / 64 + 1 := by omega
  have hm : (64 + place) % 64 = place % 64 := by omega
  rw [lit, lit, hd, hm, List.getD_cons_succ]

theorem lit_modify {words : List UInt64} {position : Nat} (h : position < 64 * words.length) (other : Nat) :
    lit (words.modify (position / 64) (· ||| bit (position % 64))) other =
      (decide (position = other) || lit words other) := by
  have hin : position / 64 < words.length := by omega
  have hplace : position % 64 < 64 := Nat.mod_lt _ (by decide)
  simp only [lit, List.getD_eq_getElem?_getD, List.getElem?_modify]
  by_cases hw : position / 64 = other / 64
  · have hsame : position % 64 = other % 64 ↔ position = other := by omega
    rw [← hw, List.getElem?_eq_getElem hin, Option.map_eq_map, Option.map_some, Option.getD_some, Option.getD_some,
      if_pos rfl, testBit_or_bit _ hplace, Bool.or_comm, decide_eq_decide.2 hsame]
  · have hne : position ≠ other := fun he => hw (by rw [he])
    simp [hw, hne]

/-- Words are told by their bits. -/
theorem ext_lit {words others : List UInt64} (hl : words.length = others.length)
    (h : ∀ position, lit words position = lit others position) : words = others := by
  refine List.ext_getElem hl fun k hk hk' => UInt64.toNat_inj.1 (Nat.eq_of_testBit_eq fun place => ?_)
  by_cases hp : place < 64
  · have hd : (64 * k + place) / 64 = k := by omega
    have hm : (64 * k + place) % 64 = place := by omega
    have hbit := h (64 * k + place)
    rwa [lit, lit, hd, hm, List.getD_eq_getElem _ _ hk, List.getD_eq_getElem _ _ hk'] at hbit
  · rw [testBit_of_le _ (Nat.not_lt.1 hp), testBit_of_le _ (Nat.not_lt.1 hp)]

/-- The ones of all words are the positions whose bit is one. -/
theorem sum_ones (words : List UInt64) :
    words.foldr (fun word n => ones word + n) 0 = (List.range (64 * words.length)).countP (lit words) := by
  induction words with
  | nil => rfl
  | cons word words ih =>
      have hfirst : (List.range 64).countP (lit (word :: words)) = ones word := by
        rw [ones_eq]
        refine List.countP_congr fun place hm => ?_
        have hp := List.mem_range.1 hm
        rw [lit, Nat.div_eq_of_lt hp, Nat.mod_eq_of_lt hp, List.getD_cons_zero]
      have hrest : lit (word :: words) ∘ (64 + ·) = lit words := funext fun place => lit_cons word words place
      rw [List.foldr_cons, ih, List.length_cons, Nat.mul_succ, Nat.add_comm (64 * words.length), List.range_add,
        List.countP_append, List.countP_map, hfirst, hrest]

theorem exists_lit {words : List UInt64} {word : UInt64} (hm : word ∈ words) (hn : word ≠ 0) :
    ∃ position, lit words position = true := by
  obtain ⟨k, hk, rfl⟩ := List.getElem_of_mem hm
  obtain ⟨place, hp, hbit⟩ := exists_testBit hn
  have hd : (64 * k + place) / 64 = k := by omega
  have hr : (64 * k + place) % 64 = place := by omega
  exact ⟨64 * k + place, by rw [lit, hd, hr, List.getD_eq_getElem _ _ hk]; exact hbit⟩

/-! ### Operations -/

/-- Made by the operations, and in no other way. -/
inductive Made : DirtyBits → Prop where
  | clean (length : Nat) : Made (clean length)
  | set {d : DirtyBits} (position : Nat) : Made d → Made (d.set position)
  | clear {d : DirtyBits} : Made d → Made d.clear

theorem lit_clean (length position : Nat) : lit (clean length).words position = false := by
  rw [lit, clean, List.getD_eq_getElem?_getD, List.getElem?_replicate]
  split <;> exact Nat.zero_testBit _

theorem lit_set (d : DirtyBits) (position other : Nat) : lit (d.set position).words other =
    (decide (position < d.length ∧ position = other) || lit d.words other) := by
  unfold set
  split
  · rename_i hp
    have hin : position < 64 * d.words.length := by rw [d.sized]; omega
    rw [lit_modify hin, decide_eq_decide.2 (and_iff_right hp)]
  · rename_i hp
    rw [decide_eq_false (fun h => hp h.1), Bool.false_or]

/-- A place behind the last position is never marked. -/
theorem Made.lit_eq_false {d : DirtyBits} (h : d.Made) {position : Nat} (hp : d.length ≤ position) :
    lit d.words position = false := by
  induction h with
  | clean length => exact lit_clean length position
  | @set d marked _ ih =>
      rw [length_set] at hp
      rw [lit_set, ih hp, Bool.or_false, decide_eq_false]
      rintro ⟨hm, rfl⟩
      exact Nat.not_lt.2 hp hm
  | @clear d _ _ =>
      rw [clear_eq_clean]
      exact lit_clean d.length position

theorem get_eq_and (d : DirtyBits) (position : Nat) :
    d.get position = (decide (position < d.length) && lit d.words position) := by
  rw [get, lit]
  congr 1
  exact Bool.eq_iff_iff.2 (decide_eq_true_iff.trans (and_bit_ne_zero _ (Nat.mod_lt _ (by decide))))

theorem Made.get_eq {d : DirtyBits} (h : d.Made) (position : Nat) : d.get position = lit d.words position := by
  rw [get_eq_and]
  by_cases hp : position < d.length
  · rw [decide_eq_true hp, Bool.true_and]
  · rw [h.lit_eq_false (Nat.not_lt.1 hp), Bool.and_false]

@[simp] theorem get_clean (length position : Nat) : (clean length).get position = false := by
  rw [get_eq_and, lit_clean, Bool.and_false]

@[simp] theorem get_clear (d : DirtyBits) (position : Nat) : d.clear.get position = false := by
  rw [clear_eq_clean, get_clean]

/-- Marking adds the position, if it is one, and leaves the others. -/
theorem get_set (d : DirtyBits) (position other : Nat) : (d.set position).get other =
    (decide (position < d.length ∧ position = other) || d.get other) := by
  rw [get_eq_and, get_eq_and, lit_set, length_set]
  by_cases hp : other < d.length
  · rw [decide_eq_true hp, Bool.true_and, Bool.true_and]
  · have hn : ¬(position < d.length ∧ position = other) := by
      rintro ⟨hm, rfl⟩
      exact hp hm
    rw [decide_eq_false hp, decide_eq_false hn, Bool.false_and, Bool.false_and, Bool.false_or]

/-! ### What a set tells of its positions -/

theorem mem_positions {d : DirtyBits} {position : Nat} : position ∈ d.positions ↔ d.get position = true := by
  rw [positions, List.mem_filter, List.mem_range, and_iff_right_iff_imp, get_eq_and]
  intro h
  exact of_decide_eq_true (Bool.and_eq_true_iff.1 h).1

theorem pairwise_positions (d : DirtyBits) : d.positions.Pairwise (· < ·) :=
  List.pairwise_lt_range.filter _

theorem Made.count_eq {d : DirtyBits} (h : d.Made) : d.count = d.positions.length := by
  -- the places of the words are the positions and those behind them
  have hroom : 64 * d.words.length = d.length + (64 * d.words.length - d.length) := by
    rw [d.sized]
    omega
  have hget : lit d.words = d.get := funext fun position => (h.get_eq position).symm
  rw [count, sum_ones, hroom, List.range_add, List.countP_append, List.countP_map, positions,
    ← List.countP_eq_length_filter, hget, Nat.add_eq_left, List.countP_eq_zero]
  intro place _
  simp [get_eq_and]

theorem Made.any_iff {d : DirtyBits} (h : d.Made) : d.any = true ↔ ∃ position, d.get position = true := by
  rw [any, List.any_eq_true]
  constructor
  · rintro ⟨word, hm, hn⟩
    obtain ⟨position, hp⟩ := exists_lit hm (of_decide_eq_true hn)
    exact ⟨position, (h.get_eq position).trans hp⟩
  · rintro ⟨position, hp⟩
    have hin : position / 64 < d.words.length := Nat.not_le.1 fun hl => by
      rw [h.get_eq, lit_of_le (by omega)] at hp
      cases hp
    refine ⟨d.words[position / 64], List.getElem_mem hin, decide_eq_true fun hz => ?_⟩
    rw [h.get_eq, lit, List.getD_eq_getElem _ _ hin, hz, UInt64.toNat_zero, Nat.zero_testBit] at hp
    cases hp

theorem Made.eq_iff {d e : DirtyBits} (hd : d.Made) (he : e.Made) (hl : d.length = e.length) :
    d = e ↔ ∀ position, d.get position = e.get position := by
  refine ⟨fun h position => by rw [h], fun h => ?_⟩
  have hwords : d.words = e.words :=
    ext_lit (by rw [d.sized, e.sized, hl]) fun position => by rw [← hd.get_eq, ← he.get_eq, h]
  obtain ⟨_, _, _⟩ := d
  obtain ⟨_, _, _⟩ := e
  obtain rfl := hl
  obtain rfl := hwords
  rfl

end Docket.DirtyBits
