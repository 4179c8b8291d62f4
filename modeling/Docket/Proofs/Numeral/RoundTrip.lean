import Docket.Numeral.Layout
import Docket.Proofs.Numeral.Digits
import Docket.Proofs.Numeral.Rounding

/-!
# Numbers are read back from the texts of fields

The shortest decimal of a pattern is near it, since the search accepts nothing else
and the exact value is. Written out with every digit it is read as the same decimal,
and rounding that gives the pattern back. Not-a-numbers have one text among them, so
of those only the quiet one comes back.
-/
namespace Docket.Numeral

variable {f : Format} {pattern significand bits : Nat} {exponent : Int} {negative : Bool}

/-! ### Patterns taken apart -/

namespace Format

/-- A format with room for exponents and fractions, its fraction of no more bits than
there are exponents. -/
structure Balanced (f : Format) : Prop where
  exponent_pos : 0 < f.exponentBits
  fraction_pos : 0 < f.fractionBits
  fraction_le : f.fractionBits ≤ 2 ^ f.exponentBits

theorem balanced_single : single.Balanced := ⟨by decide, by decide, by decide⟩

theorem balanced_double : double.Balanced := ⟨by decide, by decide, by decide⟩

/-- The exponent field and the fraction make up the pattern without its sign. -/
theorem mod_signBit (f : Format) (bits : Nat) : bits % f.signBit =
    bits / 2 ^ f.fractionBits % 2 ^ f.exponentBits * 2 ^ f.fractionBits + bits % 2 ^ f.fractionBits := by
  rw [signBit, Nat.pow_add, Nat.mul_comm (2 ^ f.exponentBits), Nat.mod_mul, Nat.add_comm, Nat.mul_comm]

theorem signed_mod_signBit (h : bits < 2 * f.signBit) :
    f.signed (decide (bits / f.signBit % 2 = 1)) (bits % f.signBit) = bits := by
  have hp : 0 < f.signBit := Nat.two_pow_pos _
  have hq : bits / f.signBit < 2 := (Nat.div_lt_iff_lt_mul hp).2 h
  have hs := Nat.div_add_mod bits f.signBit
  generalize bits / f.signBit = sign at *
  have hsign : sign = 0 ∨ sign = 1 := by omega
  rcases hsign with rfl | rfl <;> simpa [signed] using hs

theorem composes_of_read (h : f.read bits = .finite negative significand exponent) :
    Composes f (bits % f.signBit) significand exponent ∧ negative = decide (bits / f.signBit % 2 = 1) := by
  have hfield : bits / 2 ^ f.fractionBits % 2 ^ f.exponentBits < 2 ^ f.exponentBits :=
    Nat.mod_lt _ (Nat.two_pow_pos _)
  have hfraction : bits % 2 ^ f.fractionBits < 2 ^ f.fractionBits := Nat.mod_lt _ (Nat.two_pow_pos _)
  have hpow : 2 ^ (f.fractionBits + 1) = 2 * 2 ^ f.fractionBits := by rw [Nat.pow_succ, Nat.mul_comm]
  rw [mod_signBit]
  unfold read at h
  generalize bits / 2 ^ f.fractionBits % 2 ^ f.exponentBits = field at *
  generalize bits % 2 ^ f.fractionBits = fraction at *
  dsimp only at h
  split at h
  · split at h <;> cases h
  · rename_i hlast
    have hinf : (field + 1) * 2 ^ f.fractionBits ≤ f.infinity :=
      Nat.mul_le_mul_right _ (by omega)
    rw [Nat.succ_mul] at hinf
    split at h
    · rename_i hz
      obtain ⟨rfl, rfl, rfl⟩ := Reading.finite.inj h
      refine ⟨⟨?_, le_refl _, by omega, .inl rfl, by omega⟩, rfl⟩
      rw [hz, Int.sub_self]
      rfl
    · rename_i hz
      obtain ⟨rfl, rfl, rfl⟩ := Reading.finite.inj h
      have hstep : (f.leastExponent + field - 1 - f.leastExponent).toNat = field - 1 := by omega
      have hmul : field * 2 ^ f.fractionBits = (field - 1) * 2 ^ f.fractionBits + 2 ^ f.fractionBits := by
        rw [← Nat.succ_mul, Nat.succ_eq_add_one, Nat.sub_add_cancel (by omega)]
      refine ⟨⟨?_, by omega, by omega, .inr (by omega), by omega⟩, rfl⟩
      rw [hstep, hmul]
      omega

end Format

/-! ### The shortest decimal -/

namespace Decimal

def value (d : Decimal) : ℚ :=
  d.digits * 10 ^ d.power

theorem value_exact (significand : Nat) (exponent : Int) :
    (exact significand exponent).value = significand * 2 ^ exponent := by
  cases exponent with
  | ofNat n =>
      simp only [exact, value, zpow_zero, mul_one, Int.ofNat_eq_natCast, zpow_natCast]
      push_cast
      rfl
  | negSucc n =>
      have hten : (10 : ℚ) ^ (n + 1) = 2 ^ (n + 1) * 5 ^ (n + 1) := by
        rw [← mul_pow]
        norm_num
      simp only [exact, value, zpow_negSucc, hten]
      push_cast
      field_simp

end Decimal

/-- Points of a grid are compared with multiples of a unit as the numbers they
stand for. -/
theorem compare_on_grid {unit : Quotient} {u : ℚ} (hu : unit.value = u) (hd : 0 < unit.denominator) (power : Int)
    (point a : Nat) :
    (a * (unit.scale 10 (-power)).numerator ≤ point * (unit.scale 10 (-power)).denominator ↔
      a * u ≤ Decimal.value ⟨point, power⟩) ∧
    (point * (unit.scale 10 (-power)).denominator ≤ a * (unit.scale 10 (-power)).numerator ↔
      Decimal.value ⟨point, power⟩ ≤ a * u) := by
  have hten : (0 : ℚ) < 10 ^ power := by positivity
  have hgrid : (unit.scale 10 (-power)).value = u / 10 ^ power := by
    rw [Quotient.value_scale _ (by decide), hu, zpow_neg]
    push_cast
    rfl
  have hden : (0 : ℚ) < (unit.scale 10 (-power)).denominator := by
    exact_mod_cast Quotient.denominator_scale_pos hd (by decide) _
  generalize unit.scale 10 (-power) = grid at *
  have hratio : (a * grid.numerator : ℚ) / grid.denominator = a * u / 10 ^ power := by
    rw [mul_div_assoc, ← Quotient.value, hgrid, mul_div_assoc]
  constructor
  · rw [← Nat.cast_le (α := ℚ), Nat.cast_mul, Nat.cast_mul, ← div_le_iff₀ hden, hratio, div_le_iff₀ hten,
      Decimal.value]
  · rw [← Nat.cast_le (α := ℚ), Nat.cast_mul, Nat.cast_mul, ← le_div_iff₀ hden, hratio, le_div_iff₀ hten,
      Decimal.value]

namespace Format

/-- What the interval of a number holds is near the number. -/
theorem near_of_holds (hs : 0 < significand) {power : Int} {point : Nat}
    (h : (f.interval significand exponent).holds power point = true) :
    Near f significand exponent (Decimal.value ⟨point, power⟩) := by
  have hunit : (f.interval significand exponent).unit.value = 2 ^ exponent / 4 := by
    rw [interval, Quotient.value_scale _ (by decide), Quotient.value_ofNat, zpow_sub₀ (by norm_num)]
    norm_num
  have hden : 0 < (f.interval significand exponent).unit.denominator :=
    Quotient.denominator_scale_pos (by decide) (by decide) _
  have hlow : ((f.interval significand exponent).low : ℚ) * (2 ^ exponent / 4) =
      ((significand : ℚ) - (f.reach significand exponent : ℚ) / 4) * 2 ^ exponent := by
    have hr : f.reach significand exponent ≤ 4 * significand := by
      unfold reach
      split <;> omega
    rw [interval, ← reach, Nat.cast_sub hr]
    push_cast
    ring
  have hhigh : ((f.interval significand exponent).high : ℚ) * (2 ^ exponent / 4) =
      ((significand : ℚ) + 1 / 2) * 2 ^ exponent := by
    rw [interval]
    push_cast
    ring
  have hclosed : (f.interval significand exponent).closed = decide (significand % 2 = 0) := rfl
  have hcompare := compare_on_grid hunit hden power point
  unfold Interval.holds at h
  dsimp only at h
  rw [hclosed] at h
  split at h
  · rename_i heven
    rw [Bool.and_eq_true, decide_eq_true_eq, decide_eq_true_eq, (hcompare _).1, (hcompare _).2, hlow, hhigh] at h
    exact ⟨h.1, h.2, .inl (of_decide_eq_true heven)⟩
  · rw [Bool.and_eq_true, decide_eq_true_eq, decide_eq_true_eq, ← not_le, ← not_le, (hcompare _).1, (hcompare _).2,
      hlow, hhigh, not_le, not_le] at h
    exact ⟨le_of_lt h.1, le_of_lt h.2, .inr h⟩

/-- The number itself is near. -/
theorem near_self (f : Format) (significand : Nat) (exponent : Int) :
    Near f significand exponent (significand * 2 ^ exponent) := by
  have hu : (0 : ℚ) < 2 ^ exponent := by positivity
  have hr : (0 : ℚ) < f.reach significand exponent := by
    unfold reach
    split <;> norm_num
  have hlow : ((significand : ℚ) - (f.reach significand exponent : ℚ) / 4) * 2 ^ exponent <
      significand * 2 ^ exponent :=
    mul_lt_mul_of_pos_right (by linarith) hu
  have hhigh : (significand : ℚ) * 2 ^ exponent < ((significand : ℚ) + 1 / 2) * 2 ^ exponent :=
    mul_lt_mul_of_pos_right (by linarith) hu
  exact ⟨le_of_lt hlow, le_of_lt hhigh, .inr ⟨hlow, hhigh⟩⟩

end Format

theorem Interval.holds_of_pointOn? {i : Interval} {tie : Tie} {power : Int} {point : Nat}
    (h : i.pointOn? tie power = some point) : i.holds power point = true := by
  unfold pointOn? at h
  dsimp only at h
  repeat' split at h
  all_goals first | cases h; assumption | cases h

/-- The search ends with a point that the interval holds. -/
theorem Interval.holds_of_search {i : Interval} {tie : Tie} {tries : Nat} {power : Int} {d : Decimal}
    (h : i.search tie tries power = some d) : i.holds d.power d.digits = true := by
  induction tries generalizing power with
  | zero => cases h
  | succ tries ih =>
      rw [search] at h
      split at h
      · rename_i point hp
        cases h
        exact holds_of_pointOn? hp
      · exact ih h

/-- The shortest decimal of a number is near it. -/
theorem Format.near_shortest (hs : 0 < significand) (tie : Tie) :
    Near f significand exponent (f.shortest tie significand exponent).value := by
  unfold shortest
  dsimp only
  cases hd : (f.interval significand exponent).search tie 24
      (Int.fdiv (((Nat.log2 significand : Int) + exponent + 1) * 30103) 100000 + 2) with
  | some d =>
      rw [Option.getD_some]
      exact near_of_holds hs (Interval.holds_of_search hd)
  | none =>
      rw [Option.getD_none, Decimal.value_exact]
      exact near_self f significand exponent

/-! ### The text of a decimal -/

/-- Zeros behind digits multiply by powers of ten. -/
theorem ofDigits_append_zeros (ds : List Nat) (count : Nat) :
    ofDigits (ds ++ List.replicate count 0) = ofDigits ds * 10 ^ count := by
  induction count with
  | zero => simp
  | succ count ih =>
      rw [List.replicate_succ', ← List.append_assoc, ofDigits, List.foldl_append, ← ofDigits, ih]
      simp only [List.foldl_cons, List.foldl_nil, Nat.pow_succ]
      ring

/-- Zeros in front of digits do not count. -/
theorem ofDigits_zeros_append (count : Nat) (ds : List Nat) :
    ofDigits (List.replicate count 0 ++ ds) = ofDigits ds := by
  induction count with
  | zero => rfl
  | succ count ih =>
      rw [List.replicate_succ, List.cons_append]
      exact ih

theorem takeDigits_of_isDigit {cs : List Char} (h : ∀ c ∈ cs, c.isDigit = true) :
    takeDigits cs = (cs.map fun c => c.toNat - '0'.toNat, []) := by
  have ht := takeDigits_append h (show Digitless [] from rfl)
  rwa [List.append_nil] at ht

/-- The text is a decimal that stands for a number, and begins with a digit. -/
structure Spells (text : List Char) (v : ℚ) : Prop where
  read : ∃ digits power, decimal? text = some (digits, power) ∧ (digits : ℚ) * 10 ^ power = v
  head : ∃ c cs, text = c :: cs ∧ c.isDigit = true

theorem head_of_isDigit {cs : List Char} (h : ∀ c ∈ cs, c.isDigit = true) (hne : cs ≠ []) (rest : List Char) :
    ∃ c tail, cs ++ rest = c :: tail ∧ c.isDigit = true := by
  cases cs with
  | nil => exact absurd rfl hne
  | cons c cs => exact ⟨c, cs ++ rest, rfl, h c List.mem_cons_self⟩

theorem spells_digits {cs : List Char} {n : Nat} (h : ∀ c ∈ cs, c.isDigit = true) (hne : cs ≠ [])
    (hn : ofDigits (cs.map fun c => c.toNat - '0'.toNat) = n) : Spells cs n := by
  have hm : (cs.map fun c => c.toNat - '0'.toNat).isEmpty = false := by
    cases cs with
    | nil => exact absurd rfl hne
    | cons c cs => rfl
  constructor
  · refine ⟨n, 0, ?_, by rw [zpow_zero, mul_one]⟩
    simp only [decimal?, takeDigits_of_isDigit h, List.append_nil, hm, hn, Bool.false_eq_true, if_false,
      List.length_nil, Nat.cast_zero, neg_zero]
  · have hh := head_of_isDigit h hne []
    rwa [List.append_nil] at hh

/-- Digits, a point and digits. -/
theorem spells_point {whole fraction : List Char} {n : Nat} (hw : ∀ c ∈ whole, c.isDigit = true)
    (hf : ∀ c ∈ fraction, c.isDigit = true) (hne : whole ≠ [])
    (hn : ofDigits ((whole ++ fraction).map fun c => c.toNat - '0'.toNat) = n) :
    Spells (whole ++ '.' :: fraction) (n * 10 ^ (-(fraction.length : Int))) := by
  have ht := takeDigits_append hw (show Digitless ('.' :: fraction) from rfl)
  have hm : ((whole ++ fraction).map fun c => c.toNat - '0'.toNat).isEmpty = false := by
    cases whole with
    | nil => exact absurd rfl hne
    | cons c cs => rfl
  constructor
  · refine ⟨n, -(fraction.length : Int), ?_, rfl⟩
    simp only [decimal?, ht, takeDigits_of_isDigit hf, ← List.map_append, hm, hn, List.length_map,
      Bool.false_eq_true, if_false]
  · exact head_of_isDigit hw hne _

namespace Decimal

theorem isDigit_zeros (count : Nat) : ∀ c ∈ List.replicate count '0', c.isDigit = true := by
  intro c hc
  rw [List.eq_of_mem_replicate hc]
  rfl

theorem map_zeros (count : Nat) :
    (List.replicate count '0').map (fun c => c.toNat - '0'.toNat) = List.replicate count 0 := by
  rw [List.map_replicate]
  rfl

theorem digitText_eq (d : Decimal) : d.digitText = Nat.toDigits 10 d.digits :=
  Nat.toList_repr

theorem isDigit_digitText (d : Decimal) : ∀ c ∈ d.digitText, c.isDigit = true := by
  rw [digitText_eq]
  exact isDigit_of_mem_toDigits

theorem digitText_ne_nil (d : Decimal) : d.digitText ≠ [] := by
  rw [digitText_eq]
  exact Nat.toDigits_ne_nil

theorem ofDigits_digitText (d : Decimal) : ofDigits (d.digitText.map fun c => c.toNat - '0'.toNat) = d.digits := by
  rw [digitText_eq]
  exact ofDigits_digits d.digits

/-- An integer, with zeros for its power. -/
theorem spells_whole (d : Decimal) (count : Nat) :
    Spells (d.digitText ++ List.replicate count '0') (d.digits * 10 ^ (count : Int)) := by
  have hall : ∀ c ∈ d.digitText ++ List.replicate count '0', c.isDigit = true :=
    List.forall_mem_append.2 ⟨d.isDigit_digitText, isDigit_zeros _⟩
  have hn : ofDigits ((d.digitText ++ List.replicate count '0').map fun c => c.toNat - '0'.toNat) =
      d.digits * 10 ^ count := by
    rw [List.map_append, map_zeros, ofDigits_append_zeros, d.ofDigits_digitText]
  have hs := spells_digits hall (List.append_ne_nil_of_left_ne_nil d.digitText_ne_nil _) hn
  push_cast at hs
  exact hs

/-- The point stands among the digits. -/
theorem spells_among (d : Decimal) {place : Nat} (hp : 0 < place) :
    Spells (d.digitText.take place ++ '.' :: d.digitText.drop place)
      (d.digits * 10 ^ (-((d.digitText.drop place).length : Int))) := by
  have hwhole : d.digitText.take place ≠ [] := by
    rw [ne_eq, List.take_eq_nil_iff, not_or]
    exact ⟨by omega, d.digitText_ne_nil⟩
  have hn : ofDigits ((d.digitText.take place ++ d.digitText.drop place).map fun c => c.toNat - '0'.toNat) =
      d.digits := by
    rw [List.take_append_drop]
    exact d.ofDigits_digitText
  exact spells_point (fun c hc => d.isDigit_digitText c (List.mem_of_mem_take hc))
    (fun c hc => d.isDigit_digitText c (List.mem_of_mem_drop hc)) hwhole hn

/-- The digits begin behind the point, with zeros between. -/
theorem spells_behind (d : Decimal) (count : Nat) :
    Spells (['0'] ++ '.' :: (List.replicate count '0' ++ d.digitText))
      (d.digits * 10 ^ (-((List.replicate count '0' ++ d.digitText).length : Int))) := by
  have hall : ∀ c ∈ List.replicate count '0' ++ d.digitText, c.isDigit = true :=
    List.forall_mem_append.2 ⟨isDigit_zeros _, d.isDigit_digitText⟩
  have hz : ['0'] ++ (List.replicate count '0' ++ d.digitText) =
      List.replicate (count + 1) '0' ++ d.digitText := by
    rw [List.replicate_succ]
    rfl
  have hn : ofDigits ((['0'] ++ (List.replicate count '0' ++ d.digitText)).map fun c => c.toNat - '0'.toNat) =
      d.digits := by
    rw [hz, List.map_append, map_zeros, ofDigits_zeros_append, d.ofDigits_digitText]
  exact spells_point (isDigit_zeros 1) hall (List.cons_ne_nil '0' []) hn

/-- A decimal with every digit written out spells its number. -/
theorem spells_positional (d : Decimal) : Spells (d.positional false) d.value := by
  unfold positional
  dsimp only
  by_cases hp : 0 ≤ d.power
  · rw [if_pos hp, if_neg Bool.false_ne_true, List.append_nil, value, ← Int.toNat_of_nonneg hp]
    exact d.spells_whole d.power.toNat
  · rw [if_neg hp]
    by_cases hw : 0 < (d.digitText.length : Int) + d.power
    · rw [if_pos hw]
      generalize hplace : ((d.digitText.length : Int) + d.power).toNat = place
      have hlength : -((d.digitText.drop place).length : Int) = d.power := by
        rw [List.length_drop]
        omega
      have hs := d.spells_among (by omega : 0 < place)
      rw [hlength] at hs
      exact hs
    · rw [if_neg hw]
      generalize hcount : (-((d.digitText.length : Int) + d.power)).toNat = count
      have hlength : -((List.replicate count '0' ++ d.digitText).length : Int) = d.power := by
        rw [List.length_append, List.length_replicate]
        omega
      have hs := d.spells_behind count
      rw [hlength] at hs
      exact hs

end Decimal

/-! ### Reading the decimal -/

/-- A number with a count of digits lies between powers of ten. -/
theorem length_digits {n : Nat} (hn : 0 < n) :
    10 ^ ((toString n).length - 1) ≤ n ∧ n < 10 ^ (toString n).length ∧ 0 < (toString n).length := by
  have hl : (toString n).length = (Nat.toDigits 10 n).length := by
    rw [← String.length_toList]
    exact congrArg List.length Nat.toList_repr
  have hpos : 0 < (Nat.toDigits 10 n).length := Nat.length_toDigits_pos
  rw [hl]
  refine ⟨?_, (Nat.length_toDigits_le_iff (by decide) hpos).1 (Nat.le_refl _), hpos⟩
  by_cases hone : 0 < (Nat.toDigits 10 n).length - 1
  · have hlt : ¬n < 10 ^ ((Nat.toDigits 10 n).length - 1) := by
      rw [← Nat.length_toDigits_le_iff (by decide) hone]
      omega
    omega
  · have hz : (Nat.toDigits 10 n).length - 1 = 0 := by omega
    rw [hz]
    exact hn

namespace Format

theorem two_pow_pred {f : Format} (hf : f.Balanced) : 2 ^ f.exponentBits = 2 * 2 ^ (f.exponentBits - 1) := by
  conv_lhs => rw [← Nat.sub_add_cancel hf.exponent_pos, Nat.pow_succ, Nat.mul_comm]

theorem leastExponent_eq (f : Format) :
    f.leastExponent = 2 - ((2 ^ (f.exponentBits - 1) : Nat) : Int) - f.fractionBits := by
  rw [leastExponent]
  push_cast
  rfl

/-- No exponent of a finite pattern goes beyond that of the largest one. -/
theorem Composes.exponent_le (hf : f.Balanced) (hc : Composes f pattern significand exponent) :
    exponent + f.fractionBits ≤ (2 ^ (f.exponentBits - 1) : Nat) := by
  have hlt : (exponent - f.leastExponent).toNat * 2 ^ f.fractionBits <
      (2 ^ f.exponentBits - 1) * 2 ^ f.fractionBits := by
    have hfinite := hc.finite
    rw [hc.composed, infinity] at hfinite
    omega
  have hstep := lt_of_mul_lt_mul_right hlt (Nat.zero_le _)
  have hleast := leastExponent_eq f
  have htwo := two_pow_pred hf
  have hge := hc.least
  omega

/-- Numbers near a finite pattern are far below the first power of ten that reading
takes for infinite. -/
theorem Near.lt_ten_pow {v : ℚ} (h : Near f significand exponent v) (hf : f.Balanced)
    (hc : Composes f pattern significand exponent) : v < 10 ^ (2 ^ f.exponentBits) := by
  have hu : (0 : ℚ) < 2 ^ exponent := by positivity
  have hbits : (significand : ℚ) + 1 ≤ 2 ^ (f.fractionBits + 1) := by exact_mod_cast hc.lt
  have hpos := Nat.two_pow_pos (f.exponentBits - 1)
  have hexp : ((f.fractionBits + 1 : Nat) : Int) + exponent ≤ (2 ^ f.exponentBits : Nat) := by
    have hle := hc.exponent_le hf
    have htwo := two_pow_pred hf
    omega
  calc v ≤ ((significand : ℚ) + 1 / 2) * 2 ^ exponent := h.high
    _ < 2 ^ (f.fractionBits + 1) * 2 ^ exponent := by
        apply mul_lt_mul_of_pos_right _ hu
        linarith
    _ = 2 ^ (((f.fractionBits + 1 : Nat) : Int) + exponent) := (two_zpow_add _ _).symm
    _ ≤ 2 ^ ((2 ^ f.exponentBits : Nat) : Int) := zpow_le_zpow_right₀ (by norm_num) hexp
    _ = 2 ^ (2 ^ f.exponentBits) := zpow_natCast _ _
    _ ≤ 10 ^ (2 ^ f.exponentBits) := pow_le_pow_left₀ (by norm_num) (by norm_num) _

/-- And far above the last power of ten that reading takes for zero. -/
theorem Near.ten_pow_lt {v : ℚ} (h : Near f significand exponent v) (hf : f.Balanced)
    (hc : Composes f pattern significand exponent) (hs : 0 < significand) :
    ((10 : ℚ) ^ (2 ^ f.exponentBits))⁻¹ ≤ v := by
  have hu : (0 : ℚ) < 2 ^ exponent := by positivity
  have hr := reach_le f significand exponent
  have hs : (1 : ℚ) ≤ significand := by exact_mod_cast hs
  have hexp : 0 ≤ ((3 * 2 ^ f.exponentBits : Nat) : Int) + (exponent - 1) := by
    have hle := hf.fraction_le
    have hleast := hc.least
    have htwo := two_pow_pred hf
    rw [leastExponent_eq] at hleast
    omega
  have hten : (2 : ℚ) ^ (3 * 2 ^ f.exponentBits) ≤ 10 ^ (2 ^ f.exponentBits) := by
    rw [pow_mul]
    exact pow_le_pow_left₀ (by norm_num) (by norm_num) _
  rw [inv_le_iff_one_le_mul₀ (by positivity)]
  calc (1 : ℚ) = 2 ^ (0 : Int) := (zpow_zero _).symm
    _ ≤ 2 ^ (((3 * 2 ^ f.exponentBits : Nat) : Int) + (exponent - 1)) := zpow_le_zpow_right₀ (by norm_num) hexp
    _ = 2 ^ (3 * 2 ^ f.exponentBits) * (2 ^ exponent / 2) := by
        rw [two_zpow_add, zpow_sub_one₀ (by norm_num), div_eq_mul_inv]
    _ ≤ 10 ^ (2 ^ f.exponentBits) * (2 ^ exponent / 2) := by
        apply mul_le_mul_of_nonneg_right hten
        positivity
    _ ≤ 10 ^ (2 ^ f.exponentBits) * v := by
        apply mul_le_mul_of_nonneg_left _ (by positivity)
        refine le_trans ?_ h.low
        have hmul : (1 / 2 : ℚ) * 2 ^ exponent ≤
            ((significand : ℚ) - (f.reach significand exponent : ℚ) / 4) * 2 ^ exponent :=
          mul_le_mul_of_nonneg_right (by linarith) (le_of_lt hu)
        linarith
    _ = v * 10 ^ (2 ^ f.exponentBits) := mul_comm _ _

/-- A decimal near a pattern is not so long that it is taken for infinite. -/
theorem Near.length_le (hf : f.Balanced) (hc : Composes f pattern significand exponent) {digits : Nat} {power : Int}
    (h : Near f significand exponent (digits * 10 ^ power)) (hn : 0 < digits) :
    ((toString digits).length : Int) + power ≤ (2 ^ f.exponentBits : Nat) := by
  obtain ⟨hle, -, hlength⟩ := length_digits hn
  by_contra hlong
  have hge : (10 : ℚ) ^ ((((toString digits).length - 1 : Nat) : Int) + power) ≤ digits * 10 ^ power := by
    rw [zpow_add₀ (by norm_num), zpow_natCast]
    apply mul_le_mul_of_nonneg_right _ (by positivity)
    exact_mod_cast hle
  have hexp : ((2 ^ f.exponentBits : Nat) : Int) ≤ (((toString digits).length - 1 : Nat) : Int) + power := by
    omega
  have hpow : (10 : ℚ) ^ (2 ^ f.exponentBits) ≤ 10 ^ ((((toString digits).length - 1 : Nat) : Int) + power) := by
    rw [← zpow_natCast]
    exact zpow_le_zpow_right₀ (by norm_num) hexp
  exact absurd (h.lt_ten_pow hf hc) (not_lt.2 (le_trans hpow hge))

/-- Nor does it begin so late that it is taken for zero. -/
theorem Near.le_length (hf : f.Balanced) (hc : Composes f pattern significand exponent) (hs : 0 < significand)
    {digits : Nat} {power : Int} (h : Near f significand exponent (digits * 10 ^ power)) (hn : 0 < digits) :
    -((2 ^ f.exponentBits : Nat) : Int) ≤ ((toString digits).length : Int) + power := by
  obtain ⟨-, hlt, -⟩ := length_digits hn
  by_contra hshort
  have hlt : (digits : ℚ) * 10 ^ power < 10 ^ (((toString digits).length : Int) + power) := by
    rw [zpow_add₀ (by norm_num), zpow_natCast]
    apply mul_lt_mul_of_pos_right _ (by positivity)
    exact_mod_cast hlt
  have hpow : (10 : ℚ) ^ (((toString digits).length : Int) + power) ≤ (10 ^ (2 ^ f.exponentBits))⁻¹ := by
    rw [← zpow_natCast, ← zpow_neg]
    apply zpow_le_zpow_right₀ (by norm_num)
    omega
  exact absurd (h.ten_pow_lt hf hc hs) (not_le.2 (lt_of_lt_of_le hlt hpow))

/-- A decimal near a pattern is read as the pattern. -/
theorem ofDecimal_of_near (hf : f.Balanced) (hc : Composes f pattern significand exponent) (hs : 0 < significand)
    {digits : Nat} {power : Int} (h : Near f significand exponent (digits * 10 ^ power)) (negative : Bool) :
    f.ofDecimal negative digits power = f.signed negative pattern := by
  have hn : digits ≠ 0 := by
    rintro rfl
    have hv := h.pos hs
    rw [Nat.cast_zero, zero_mul] at hv
    exact lt_irrefl _ hv
  have hbound : ((2 : Int) ^ f.exponentBits) = (2 ^ f.exponentBits : Nat) := by
    push_cast
    rfl
  have hbelow := h.length_le hf hc (Nat.pos_of_ne_zero hn)
  have habove := h.le_length hf hc hs (Nat.pos_of_ne_zero hn)
  unfold ofDecimal
  dsimp only
  rw [hbound, if_neg hn, if_neg (not_lt.2 hbelow), if_neg (not_lt.2 habove)]
  apply nearest_of_near hf.fraction_pos hc hs
  · exact Quotient.denominator_scale_pos Nat.zero_lt_one (by decide) _
  · rw [Quotient.value_scale _ (by decide), Quotient.value_ofNat]
    exact h

end Format

/-! ### Texts of fields -/

theorem takeSign_of_isDigit {c : Char} {cs : List Char} (h : c.isDigit = true) :
    takeSign (c :: cs) = (false, c :: cs) := by
  unfold takeSign
  split
  · rename_i heq
    rw [(List.cons.inj heq).1] at h
    cases h
  · rename_i heq
    rw [(List.cons.inj heq).1] at h
    cases h
  · rfl

/-- A sign in front of a decimal is read apart from it. -/
theorem Format.parse?_of_spells {text : List Char} {v : ℚ} (hs : Spells text v) (f : Format) (negative : Bool) :
    ∃ (digits : Nat) (power : Int), (digits : ℚ) * 10 ^ power = v ∧
      f.parse? (String.ofList (if negative then '-' :: text else text)) = some (f.ofDecimal negative digits power) := by
  obtain ⟨digits, power, hd, hv⟩ := hs.read
  obtain ⟨c, cs, htext, hc⟩ := hs.head
  refine ⟨digits, power, hv, ?_⟩
  cases negative with
  | true =>
      have ht : takeSign ('-' :: text) = (true, text) := rfl
      simp only [parse?, String.toList_ofList, if_true, ht, hd]
  | false =>
      have ht : takeSign text = (false, text) := by
        rw [htext]
        exact takeSign_of_isDigit hc
      simp only [parse?, String.toList_ofList, Bool.false_eq_true, if_false, ht, hd]

/-- The special values are read by name. -/
theorem Format.parse?_infinite (f : Format) (negative : Bool) :
    f.parse? (String.ofList (if negative then '-' :: Layout.field.infinite.toList else Layout.field.infinite.toList)) =
      some (f.signed negative f.infinity) := by
  have ht : takeSign ("inf".toList) = (false, "inf".toList) := by rfl
  have hd : decimal? "inf".toList = none := by rfl
  have hname : String.ofList ("inf".toList.map Char.toLower) = "inf" := by rfl
  have hi : Layout.field.infinite = "inf" := rfl
  have htn : takeSign ('-' :: "inf".toList) = (true, "inf".toList) := rfl
  rw [hi]
  cases negative with
  | true => simp only [parse?, String.toList_ofList, if_true, htn, hd, hname, true_or]
  | false => simp only [parse?, String.toList_ofList, Bool.false_eq_true, if_false, ht, hd, hname, true_or, if_true]

namespace Format

/-- A pattern with every bit of the exponent set is infinite or not a number. -/
theorem read_special (h : bits / 2 ^ f.fractionBits % 2 ^ f.exponentBits = 2 ^ f.exponentBits - 1) :
    bits % f.signBit = f.infinity + bits % 2 ^ f.fractionBits ∧
      f.read bits = if bits % 2 ^ f.fractionBits = 0 then .infinite (decide (bits / f.signBit % 2 = 1))
        else .notANumber := by
  constructor
  · rw [mod_signBit, h, infinity]
  · simp only [read, h, if_true]

theorem read_eq_infinite (h : f.read bits = .infinite negative) :
    bits % f.signBit = f.infinity ∧ negative = decide (bits / f.signBit % 2 = 1) := by
  by_cases hs : bits / 2 ^ f.fractionBits % 2 ^ f.exponentBits = 2 ^ f.exponentBits - 1
  · obtain ⟨hm, hr⟩ := read_special hs
    rw [hr] at h
    split at h
    · rename_i hz
      exact ⟨by rw [hm, hz, Nat.add_zero], (Reading.infinite.inj h).symm⟩
    · cases h
  · simp only [read, hs, if_false] at h
    split at h <;> cases h

/-- A pattern is read as not a number exactly when it lies beyond infinity. -/
theorem read_eq_notANumber_iff : f.read bits = .notANumber ↔ f.isNan bits = true := by
  rw [isNan, decide_eq_true_eq]
  by_cases hs : bits / 2 ^ f.fractionBits % 2 ^ f.exponentBits = 2 ^ f.exponentBits - 1
  · obtain ⟨hm, hr⟩ := read_special hs
    rw [hr, hm]
    split
    · rename_i hz
      simp [hz]
    · rename_i hz
      simp only [true_iff]
      omega
  · cases hr : f.read bits with
    | finite negative significand exponent =>
        have hc := (composes_of_read hr).1.finite
        simp only [reduceCtorEq, false_iff, not_lt]
        exact Nat.le_of_lt hc
    | infinite negative =>
        have hi := (read_eq_infinite hr).1
        simp [hi]
    | notANumber =>
        simp only [read, hs, if_false] at hr
        split at hr <;> cases hr

theorem text_of_zero (h : f.read bits = .finite negative 0 exponent) : f.text .field bits =
    String.ofList
      (if negative then '-' :: Decimal.positional ⟨0, 0⟩ false else Decimal.positional ⟨0, 0⟩ false) := by
  rw [text, h]
  rfl

theorem text_of_pos (h : f.read bits = .finite negative significand exponent) (hs : 0 < significand) :
    f.text .field bits = String.ofList
      (if negative then '-' :: (f.shortest Layout.field.tie significand exponent).positional false
        else (f.shortest Layout.field.tie significand exponent).positional false) := by
  obtain ⟨n, rfl⟩ := Nat.exists_eq_succ_of_ne_zero (Nat.pos_iff_ne_zero.1 hs)
  rw [text, h]
  rfl

/-- Zero, with either sign. -/
theorem parse?_text_of_zero (hb : bits < 2 * f.signBit) (hr : f.read bits = .finite negative 0 exponent) :
    f.parse? (f.text .field bits) = some bits := by
  obtain ⟨hc, hsign⟩ := composes_of_read hr
  have hsigned := signed_mod_signBit hb
  have hpattern : bits % f.signBit = 0 := by
    have hpos := Nat.two_pow_pos f.fractionBits
    have hle : exponent = f.leastExponent := hc.normal.resolve_right (by omega)
    rw [hc.composed, hle, Int.sub_self]
    simp
  obtain ⟨digits, power, hv, hp⟩ := parse?_of_spells (Decimal.spells_positional ⟨0, 0⟩) f negative
  have hz : digits = 0 := by
    have hten : (0 : ℚ) < 10 ^ power := by positivity
    simpa [Decimal.value, ne_of_gt hten] using hv
  rw [← hsign, hpattern] at hsigned
  rw [text_of_zero hr, hp, hz, ofDecimal, if_pos rfl, hsigned]

/-- Every pattern but a not-a-number is read back from its text in a field. -/
theorem parse?_text (hf : f.Balanced) (hb : bits < 2 * f.signBit) (hn : f.isNan bits = false) :
    f.parse? (f.text .field bits) = some bits := by
  have hsigned := signed_mod_signBit hb
  cases hr : f.read bits with
  | finite negative significand exponent =>
      rcases Nat.eq_zero_or_pos significand with rfl | hs
      · exact parse?_text_of_zero hb hr
      · obtain ⟨hc, hsign⟩ := composes_of_read hr
        obtain ⟨digits, power, hv, hp⟩ :=
          parse?_of_spells (f.shortest Layout.field.tie significand exponent).spells_positional f negative
        have hnear : Near f significand exponent (digits * 10 ^ power) := by
          rw [hv]
          exact near_shortest hs _
        rw [← hsign] at hsigned
        rw [text_of_pos hr hs, hp, ofDecimal_of_near hf hc hs hnear, hsigned]
  | infinite negative =>
      obtain ⟨hi, hsign⟩ := read_eq_infinite hr
      have ht : f.text .field bits = String.ofList
          (if negative then '-' :: Layout.field.infinite.toList else Layout.field.infinite.toList) := by
        rw [text, hr]
      rw [← hsign, hi] at hsigned
      rw [ht, parse?_infinite, hsigned]
  | notANumber =>
      rw [read_eq_notANumber_iff.1 hr] at hn
      cases hn

/-- Of the not-a-numbers, the quiet one is read. -/
theorem parse?_text_of_isNan (h : f.isNan bits = true) : f.parse? (f.text .field bits) = some f.quietNan := by
  have hr : f.read bits = .notANumber := read_eq_notANumber_iff.2 h
  have ht : takeSign "NaN".toList = (false, "NaN".toList) := by rfl
  have hd : decimal? "NaN".toList = none := by rfl
  have hname : String.ofList ("NaN".toList.map Char.toLower) = "nan" := by rfl
  have hother : ¬("nan" = "inf" ∨ "nan" = "infinity") := by decide
  have hl : Layout.field.notANumber = "NaN" := rfl
  rw [text, hr]
  dsimp only
  rw [hl]
  simp only [parse?, ht, hd, hname, hother, if_false, if_true]
  rfl

end Format

end Docket.Numeral
