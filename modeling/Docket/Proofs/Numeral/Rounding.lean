import Docket.Numeral.Binary
import Mathlib.Algebra.Order.Field.Power
import Mathlib.Data.Rat.Cast.Order
import Mathlib.Tactic.FieldSimp
import Mathlib.Tactic.Linarith
import Mathlib.Tactic.Positivity
import Mathlib.Tactic.Ring

/-!
# Rounding to the nearest pattern

A fraction stands for a rational number. `Quotient.log2` and `Quotient.round` are
what their names say, so the pattern nearest to a number can be told from where the
number lies: whatever is within half a unit of a pattern's value, on the side of a
power of two where patterns lie twice as dense within a quarter, is rounded to it.
-/
namespace Docket.Numeral

namespace Quotient

def value (q : Quotient) : ℚ :=
  q.numerator / q.denominator

@[simp] theorem value_ofNat (n : Nat) : (ofNat n).value = n := by
  simp [value, ofNat]

theorem denominator_scale_pos {q : Quotient} (hq : 0 < q.denominator) {base : Nat} (hb : 0 < base) (z : Int) :
    0 < (q.scale base z).denominator := by
  cases z with
  | ofNat n => exact hq
  | negSucc n => exact Nat.mul_pos hq (Nat.pow_pos hb)

theorem value_scale (q : Quotient) {base : Nat} (hb : 0 < base) (z : Int) :
    (q.scale base z).value = q.value * (base : ℚ) ^ z := by
  have hb : (base : ℚ) ≠ 0 := by
    have h : base ≠ 0 := Nat.pos_iff_ne_zero.1 hb
    exact_mod_cast h
  cases z with
  | ofNat n =>
      simp only [scale, value, Int.ofNat_eq_natCast, zpow_natCast, Nat.cast_mul, Nat.cast_pow]
      ring
  | negSucc n =>
      simp only [scale, value, zpow_negSucc, Nat.cast_mul, Nat.cast_pow]
      field_simp

/-- The floor is zero exactly for fractions below one. -/
theorem floor_pos_iff {q : Quotient} (hd : 0 < q.denominator) : 0 < q.floor ↔ 1 ≤ q.value := by
  have hd' : (0 : ℚ) < q.denominator := by exact_mod_cast hd
  rw [floor, Nat.div_pos_iff, value, le_div_iff₀ hd', one_mul, Nat.cast_le]
  exact and_iff_right hd

/-- The logarithms of numerator and denominator bound a fraction between powers that
are two apart. -/
theorem between_powers {q : Quotient} (hn : 0 < q.numerator) (hd : 0 < q.denominator) :
    (2 : ℚ) ^ ((Nat.log2 q.numerator : Int) - Nat.log2 q.denominator - 1) ≤ q.value ∧
      q.value < (2 : ℚ) ^ ((Nat.log2 q.numerator : Int) - Nat.log2 q.denominator + 1) := by
  have hd' : (0 : ℚ) < q.denominator := by exact_mod_cast hd
  have two : (2 : ℚ) ≠ 0 := by norm_num
  have hnl : (2 : ℚ) ^ (Nat.log2 q.numerator : Int) ≤ q.numerator := by
    exact_mod_cast Nat.log2_self_le (Nat.pos_iff_ne_zero.1 hn)
  have hnh : (q.numerator : ℚ) < 2 ^ ((Nat.log2 q.numerator : Int) + 1) := by
    exact_mod_cast (Nat.lt_log2_self : q.numerator < 2 ^ (Nat.log2 q.numerator + 1))
  have hdl : (2 : ℚ) ^ (Nat.log2 q.denominator : Int) ≤ q.denominator := by
    exact_mod_cast Nat.log2_self_le (Nat.pos_iff_ne_zero.1 hd)
  have hdh : (q.denominator : ℚ) < 2 ^ ((Nat.log2 q.denominator : Int) + 1) := by
    exact_mod_cast (Nat.lt_log2_self : q.denominator < 2 ^ (Nat.log2 q.denominator + 1))
  generalize hg : (Nat.log2 q.numerator : Int) - Nat.log2 q.denominator = guess
  constructor
  · rw [value, le_div_iff₀ hd']
    calc (2 : ℚ) ^ (guess - 1) * q.denominator
        ≤ 2 ^ (guess - 1) * 2 ^ ((Nat.log2 q.denominator : Int) + 1) := by gcongr
      _ = 2 ^ (Nat.log2 q.numerator : Int) := by
          rw [← zpow_add₀ two]
          congr 1
          omega
      _ ≤ q.numerator := hnl
  · rw [value, div_lt_iff₀ hd']
    calc (q.numerator : ℚ) < 2 ^ ((Nat.log2 q.numerator : Int) + 1) := hnh
      _ = 2 ^ (guess + 1) * 2 ^ (Nat.log2 q.denominator : Int) := by
          rw [← zpow_add₀ two]
          congr 1
          omega
      _ ≤ 2 ^ (guess + 1) * q.denominator := by gcongr

/-- The logarithm of a positive fraction is the greatest power of two below it. -/
theorem log2_spec {q : Quotient} (hn : 0 < q.numerator) (hd : 0 < q.denominator) :
    (2 : ℚ) ^ q.log2 ≤ q.value ∧ q.value < (2 : ℚ) ^ (q.log2 + 1) := by
  obtain ⟨hlow, hhigh⟩ := between_powers hn hd
  rw [log2]
  generalize (Nat.log2 q.numerator : Int) - Nat.log2 q.denominator = guess at *
  have hfloor : 0 < (q.scale 2 (-guess)).floor ↔ (2 : ℚ) ^ guess ≤ q.value := by
    have hp : (0 : ℚ) < 2 ^ guess := by positivity
    rw [floor_pos_iff (denominator_scale_pos hd (by decide) _), value_scale q (by decide), zpow_neg,
      Nat.cast_ofNat, ← div_eq_mul_inv, le_div_iff₀ hp, one_mul]
  split
  · rename_i h
    exact ⟨hfloor.1 h, hhigh⟩
  · rename_i h
    refine ⟨hlow, ?_⟩
    rw [sub_add_cancel]
    exact not_le.1 fun hle => h (hfloor.2 hle)

/-- Where a fraction lies within half a unit of an integer, the integer below it is
that one or the one before. -/
theorem floor_eq_or {q : Quotient} {n : Nat} (hd : 0 < q.denominator)
    (hl : 2 * n * q.denominator ≤ 2 * q.numerator + q.denominator)
    (hh : 2 * q.numerator ≤ (2 * n + 1) * q.denominator) :
    q.numerator / q.denominator = n ∨ q.numerator / q.denominator + 1 = n := by
  have hbelow : q.numerator / q.denominator < n + 1 := by
    rw [Nat.div_lt_iff_lt_mul hd]
    have hn : (2 * n + 1) * q.denominator + q.denominator = 2 * ((n + 1) * q.denominator) := by ring
    omega
  have habove : n < q.numerator / q.denominator + 2 := by
    have hlt := Nat.lt_div_mul_add hd (a := q.numerator)
    by_contra hc
    have hm := Nat.mul_le_mul_right q.denominator (not_lt.1 hc)
    have hn : 2 * n * q.denominator = 2 * (n * q.denominator) := by ring
    have hs : (q.numerator / q.denominator + 2) * q.denominator =
        q.numerator / q.denominator * q.denominator + 2 * q.denominator := by ring
    omega
  omega

/-- Whatever lies within half a unit of an integer is rounded to it; halfway between
two integers, the even one is. -/
theorem round_even_eq {q : Quotient} {n : Nat} (hd : 0 < q.denominator)
    (hl : (n : ℚ) - 1 / 2 ≤ q.value) (hh : q.value ≤ n + 1 / 2)
    (he : n % 2 = 0 ∨ (n : ℚ) - 1 / 2 < q.value ∧ q.value < n + 1 / 2) : q.round .even = n := by
  have hd' : (0 : ℚ) < q.denominator := by exact_mod_cast hd
  have hl : 2 * n * q.denominator ≤ 2 * q.numerator + q.denominator := by
    rw [value, le_div_iff₀ hd'] at hl
    have h : (2 * n * q.denominator : ℚ) ≤ 2 * q.numerator + q.denominator := by linarith
    exact_mod_cast h
  have hh : 2 * q.numerator ≤ (2 * n + 1) * q.denominator := by
    rw [value, div_le_iff₀ hd'] at hh
    have h : (2 * q.numerator : ℚ) ≤ (2 * n + 1) * q.denominator := by linarith
    exact_mod_cast h
  have he : n % 2 = 0 ∨ (2 * n * q.denominator < 2 * q.numerator + q.denominator ∧
      2 * q.numerator < (2 * n + 1) * q.denominator) := by
    refine he.imp id ?_
    rintro ⟨hl, hh⟩
    rw [value, lt_div_iff₀ hd'] at hl
    rw [value, div_lt_iff₀ hd'] at hh
    have hl : (2 * n * q.denominator : ℚ) < 2 * q.numerator + q.denominator := by linarith
    have hh : (2 * q.numerator : ℚ) < (2 * n + 1) * q.denominator := by linarith
    exact ⟨by exact_mod_cast hl, by exact_mod_cast hh⟩
  have hcases := floor_eq_or hd hl hh
  have hsplit := Nat.div_add_mod q.numerator q.denominator
  have hrem := Nat.mod_lt q.numerator hd
  generalize hlow : q.numerator / q.denominator = low at hsplit hcases
  generalize hr : q.numerator % q.denominator = rem at hsplit hrem
  rw [round, hlow, hr]
  have hprod : 2 * n * q.denominator = 2 * (q.denominator * n) := by ring
  have hprod' : (2 * n + 1) * q.denominator = 2 * (q.denominator * n) + q.denominator := by ring
  rcases hcases with rfl | rfl
  · split
    · rfl
    · split
      · omega
      · rw [Tie.pick]
        omega
  · have hm : q.denominator * (low + 1) = q.denominator * low + q.denominator := by ring
    split
    · omega
    · split
      · rfl
      · rw [Tie.pick]
        omega

end Quotient

namespace Format

variable {f : Format} {pattern significand : Nat} {exponent : Int} {q : Quotient}

/-- The significand and the exponent of a finite pattern of positive sign: the
exponent is the least one, or the significand has a bit for each place. -/
structure Composes (f : Format) (pattern significand : Nat) (exponent : Int) : Prop where
  composed : pattern = (exponent - f.leastExponent).toNat * 2 ^ f.fractionBits + significand
  least : f.leastExponent ≤ exponent
  lt : significand < 2 ^ (f.fractionBits + 1)
  normal : exponent = f.leastExponent ∨ 2 ^ f.fractionBits ≤ significand
  finite : pattern < f.infinity

/-- How far the numbers that round to a significand reach below it, in quarters of
its last place. -/
def reach (f : Format) (significand : Nat) (exponent : Int) : Nat :=
  if significand = 2 ^ f.fractionBits ∧ f.leastExponent < exponent then 1 else 2

/-- The numbers that round to a significand and an exponent; the ends are among them
if the significand is even. -/
structure Near (f : Format) (significand : Nat) (exponent : Int) (v : ℚ) : Prop where
  low : ((significand : ℚ) - (f.reach significand exponent : ℚ) / 4) * 2 ^ exponent ≤ v
  high : v ≤ ((significand : ℚ) + 1 / 2) * 2 ^ exponent
  ends : significand % 2 = 0 ∨ ((significand : ℚ) - (f.reach significand exponent : ℚ) / 4) * 2 ^ exponent < v ∧
    v < ((significand : ℚ) + 1 / 2) * 2 ^ exponent

theorem reach_le (f : Format) (significand : Nat) (exponent : Int) : (f.reach significand exponent : ℚ) ≤ 2 := by
  unfold reach
  split <;> norm_num

theorem Near.pos {v : ℚ} (h : Near f significand exponent v) (hs : 0 < significand) : 0 < v := by
  have hr := reach_le f significand exponent
  have hs : (1 : ℚ) ≤ significand := by exact_mod_cast hs
  have hu : (0 : ℚ) < 2 ^ exponent := by positivity
  have hp : 0 < ((significand : ℚ) - (f.reach significand exponent : ℚ) / 4) * 2 ^ exponent :=
    mul_pos (by linarith) hu
  exact lt_of_lt_of_le hp h.low

/-- Rounding at the exponent of the pattern itself gives its significand back. -/
theorem Near.round_eq (h : Near f significand exponent q.value) (hd : 0 < q.denominator) :
    (q.scale 2 (-exponent)).round .even = significand := by
  have hu : (0 : ℚ) < 2 ^ exponent := by positivity
  have hv : (q.scale 2 (-exponent)).value = q.value / 2 ^ exponent := by
    rw [Quotient.value_scale q (by decide), zpow_neg, Nat.cast_ofNat, div_eq_mul_inv]
  have hr := reach_le f significand exponent
  have hquarter : (significand : ℚ) - 1 / 2 ≤ significand - (f.reach significand exponent : ℚ) / 4 := by linarith
  have hlow : (significand : ℚ) - (f.reach significand exponent : ℚ) / 4 ≤ q.value / 2 ^ exponent :=
    (le_div_iff₀ hu).2 h.low
  apply Quotient.round_even_eq (Quotient.denominator_scale_pos hd (by decide) _)
  · rw [hv]
    exact le_trans hquarter hlow
  · rw [hv, div_le_iff₀ hu]
    exact h.high
  · refine h.ends.imp id ?_
    rintro ⟨hl, hh⟩
    rw [hv, lt_div_iff₀ hu, div_lt_iff₀ hu]
    refine ⟨lt_of_le_of_lt ?_ hl, hh⟩
    exact mul_le_mul_of_nonneg_right hquarter (le_of_lt hu)

/-- Just below a power of two, patterns lie twice as dense: rounding there gives the
power of two all the same, as the first significand that has one bit too many. -/
theorem Near.round_eq_double (h : Near f significand exponent q.value) (hd : 0 < q.denominator)
    (hs : significand = 2 ^ f.fractionBits) (he : f.leastExponent < exponent)
    (hv : q.value < 2 ^ f.fractionBits * 2 ^ exponent) :
    (q.scale 2 (-(exponent - 1))).round .even = 2 ^ (f.fractionBits + 1) := by
  have hu : (0 : ℚ) < 2 ^ exponent := by positivity
  have hscale : (q.scale 2 (-(exponent - 1))).value = 2 * (q.value / 2 ^ exponent) := by
    rw [Quotient.value_scale q (by decide), zpow_neg, Nat.cast_ofNat, zpow_sub_one₀ (by norm_num)]
    field_simp
  have hreach : f.reach significand exponent = 1 := if_pos ⟨hs, he⟩
  have hlow : (significand : ℚ) - 1 / 4 ≤ q.value / 2 ^ exponent := by
    have hl := h.low
    rw [hreach, Nat.cast_one] at hl
    exact (le_div_iff₀ hu).2 hl
  have hcast : (significand : ℚ) = 2 ^ f.fractionBits := by
    rw [hs]
    push_cast
    rfl
  have hhigh : q.value / 2 ^ exponent < (significand : ℚ) := by
    rw [div_lt_iff₀ hu, hcast]
    exact hv
  have hdouble : ((2 ^ (f.fractionBits + 1) : Nat) : ℚ) = 2 * significand := by
    rw [hcast]
    push_cast
    ring
  apply Quotient.round_even_eq (Quotient.denominator_scale_pos hd (by decide) _)
  · rw [hscale, hdouble]
    linarith
  · rw [hscale, hdouble]
    linarith
  · left
    rw [Nat.pow_succ]
    exact Nat.mul_mod_left _ _

theorem two_zpow_lt {m n : Int} : (2 : ℚ) ^ m < 2 ^ n ↔ m < n :=
  zpow_lt_zpow_iff_right₀ (by norm_num)

theorem two_zpow_add (n : Nat) (z : Int) : (2 : ℚ) ^ ((n : Int) + z) = 2 ^ n * 2 ^ z := by
  rw [zpow_add₀ (by norm_num), zpow_natCast]

theorem Near.numerator_pos (h : Near f significand exponent q.value) (hs : 0 < significand) : 0 < q.numerator := by
  have hv := h.pos hs
  refine Nat.pos_of_ne_zero fun hz => ?_
  rw [Quotient.value, hz, Nat.cast_zero, zero_div] at hv
  exact lt_irrefl _ hv

/-- The exponent that rounding chooses for a number at or above the least normal
significand of its pattern, or near a pattern of the least exponent. -/
theorem Near.exponent_eq (h : Near f significand exponent q.value) (hc : Composes f pattern significand exponent)
    (hs : 0 < significand) (hd : 0 < q.denominator)
    (hv : exponent = f.leastExponent ∨ 2 ^ f.fractionBits * 2 ^ exponent ≤ q.value) :
    max (q.log2 - f.fractionBits) f.leastExponent = exponent := by
  obtain ⟨hlow, hhigh⟩ := Quotient.log2_spec (h.numerator_pos hs) hd
  have hu : (0 : ℚ) < 2 ^ exponent := by positivity
  have hbits : (significand : ℚ) + 1 ≤ 2 ^ (f.fractionBits + 1) := by exact_mod_cast hc.lt
  have hlog : q.log2 < (f.fractionBits + 1 : Nat) + exponent := by
    rw [← two_zpow_lt, two_zpow_add]
    calc (2 : ℚ) ^ q.log2 ≤ q.value := hlow
      _ ≤ ((significand : ℚ) + 1 / 2) * 2 ^ exponent := h.high
      _ < 2 ^ (f.fractionBits + 1) * 2 ^ exponent := by
          apply mul_lt_mul_of_pos_right _ hu
          linarith
  have hleast := hc.least
  rcases hv with rfl | hv
  · apply max_eq_right
    omega
  · have hge : (f.fractionBits : Int) + exponent < q.log2 + 1 := by
      rw [← two_zpow_lt, two_zpow_add]
      exact lt_of_le_of_lt hv hhigh
    rw [max_eq_left] <;> omega

/-- Of the numbers near a pattern, only those just below a power of two are given a
smaller exponent, and it is smaller by one. -/
theorem Near.exponent_eq_pred (h : Near f significand exponent q.value) (hf : 0 < f.fractionBits)
    (hs : 0 < significand) (hd : 0 < q.denominator) (he : f.leastExponent < exponent)
    (hge : 2 ^ f.fractionBits ≤ significand) (hv : q.value < 2 ^ f.fractionBits * 2 ^ exponent) :
    significand = 2 ^ f.fractionBits ∧ max (q.log2 - f.fractionBits) f.leastExponent = exponent - 1 := by
  obtain ⟨hlow, hhigh⟩ := Quotient.log2_spec (h.numerator_pos hs) hd
  have hu : (0 : ℚ) < 2 ^ exponent := by positivity
  have hr := reach_le f significand exponent
  have hlt : (significand : ℚ) - (f.reach significand exponent : ℚ) / 4 < 2 ^ f.fractionBits :=
    lt_of_mul_lt_mul_right (lt_of_le_of_lt h.low hv) (le_of_lt hu)
  have hsig : significand = 2 ^ f.fractionBits := by
    have hlt : (significand : ℚ) < 2 ^ f.fractionBits + 1 := by linarith
    have hlt : significand < 2 ^ f.fractionBits + 1 := by exact_mod_cast hlt
    omega
  have hcast : (significand : ℚ) = 2 ^ f.fractionBits := by exact_mod_cast hsig
  have htwo : (2 : ℚ) ≤ 2 ^ f.fractionBits := by
    have hle : 2 ^ 1 ≤ 2 ^ f.fractionBits := Nat.pow_le_pow_right (by decide) hf
    exact_mod_cast hle
  have hhalf : (f.fractionBits : Int) + (exponent - 1) < q.log2 + 1 := by
    rw [← two_zpow_lt, two_zpow_add, zpow_sub_one₀ (by norm_num)]
    refine lt_of_le_of_lt (le_trans ?_ h.low) hhigh
    calc (2 : ℚ) ^ f.fractionBits * (2 ^ exponent * 2⁻¹)
        = (2 ^ f.fractionBits / 2) * 2 ^ exponent := by ring
      _ ≤ ((significand : ℚ) - (f.reach significand exponent : ℚ) / 4) * 2 ^ exponent := by
          apply mul_le_mul_of_nonneg_right _ (le_of_lt hu)
          linarith
  have hlog : q.log2 < (f.fractionBits : Int) + exponent := by
    rw [← two_zpow_lt, two_zpow_add]
    exact lt_of_le_of_lt hlow hv
  refine ⟨hsig, ?_⟩
  rw [max_eq_left] <;> omega

/-- A number near a pattern is rounded to it. -/
theorem nearest_of_near (hf : 0 < f.fractionBits) (hc : Composes f pattern significand exponent)
    (hs : 0 < significand) (hd : 0 < q.denominator) (h : Near f significand exponent q.value) (negative : Bool) :
    f.nearest negative q = f.signed negative pattern := by
  have hn := h.numerator_pos hs
  have hfinite : min pattern f.infinity = pattern := Nat.min_eq_left (Nat.le_of_lt hc.finite)
  rw [nearest, if_neg (Nat.pos_iff_ne_zero.1 hn)]
  by_cases hv : exponent = f.leastExponent ∨ 2 ^ f.fractionBits * 2 ^ exponent ≤ q.value
  · rw [h.exponent_eq hc hs hd hv]
    dsimp only
    rw [h.round_eq hd, ← hc.composed, hfinite]
  · rw [not_or, not_le] at hv
    have he : f.leastExponent < exponent := lt_of_le_of_ne hc.least (Ne.symm hv.1)
    have hge : 2 ^ f.fractionBits ≤ significand := hc.normal.resolve_left hv.1
    obtain ⟨hsig, hexp⟩ := h.exponent_eq_pred hf hs hd he hge hv.2
    -- the bit too many carries into the exponent
    have hstep : (exponent - f.leastExponent).toNat = (exponent - 1 - f.leastExponent).toNat + 1 := by omega
    have hcarry : (exponent - 1 - f.leastExponent).toNat * 2 ^ f.fractionBits + 2 ^ (f.fractionBits + 1) =
        pattern := by
      rw [hc.composed, hstep, hsig, Nat.pow_succ]
      ring
    rw [hexp]
    dsimp only
    rw [h.round_eq_double hd hsig he hv.2, hcarry, hfinite]

end Format

end Docket.Numeral
