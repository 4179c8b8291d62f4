import Docket.Numeral.Binary

/-!
# The shortest decimal that reads back

A finite pattern stands for every real number that rounds to it, an interval
around its value. The text of a number is taken from the coarsest decimal grid
`10 ^ k` that has a point in that interval, and of two such points from the
nearer one, so no decimal with fewer digits reads back to the same pattern. Which
of two equally near points is taken is left to the way of writing.
-/
namespace Docket.Numeral

structure Decimal where
  digits : Nat
  power : Int
  deriving DecidableEq, Repr

/-- The reals that round to one pattern, in fractions of one common unit. The
ends belong to the interval exactly when the significand is even. -/
structure Interval where
  low : Nat
  value : Nat
  high : Nat
  closed : Bool
  unit : Quotient
  deriving Repr

/-- The unit is a quarter of the last place. Below a power of two the patterns
lie twice as dense, so there the lower end is nearer by half. -/
def Format.interval (f : Format) (significand : Nat) (exponent : Int) : Interval where
  low := 4 * significand -
    (if significand = 2 ^ f.fractionBits ∧ f.leastExponent < exponent then 1 else 2)
  value := 4 * significand
  high := 4 * significand + 2
  closed := significand % 2 = 0
  unit := (Quotient.ofNat 1).scale 2 (exponent - 2)

namespace Interval

def holds (i : Interval) (power : Int) (point : Nat) : Bool :=
  let grid := i.unit.scale 10 (-power)
  let low := i.low * grid.numerator
  let high := i.high * grid.numerator
  let here := point * grid.denominator
  if i.closed then low ≤ here && here ≤ high else low < here && here < high

/-- The point of the grid `10 ^ power` in the interval that is nearest to the
value, if there is one. -/
def pointOn? (i : Interval) (tie : Tie) (power : Int) : Option Nat :=
  let grid := i.unit.scale 10 (-power)
  let below := i.value * grid.numerator / grid.denominator
  let nearest := Quotient.round ⟨i.value * grid.numerator, grid.denominator⟩ tie
  if i.holds power nearest then some nearest
  else if i.holds power below then some below
  else if i.holds power (below + 1) then some (below + 1)
  else none

/-- The first grid with a point in the interval, going down from `power`. -/
def search (i : Interval) (tie : Tie) : Nat → Int → Option Decimal
  | 0, _ => none
  | tries + 1, power =>
      match i.pointOn? tie power with
      | some point => some ⟨point, power⟩
      | none => i.search tie tries (power - 1)

end Interval

/-- Every `significand * 2 ^ exponent` is a decimal, since half of `10` is `5`. -/
def Decimal.exact (significand : Nat) : Int → Decimal
  | .ofNat n => ⟨significand * 2 ^ n, 0⟩
  | .negSucc n => ⟨significand * 5 ^ (n + 1), .negSucc n⟩

/-- The shortest decimal of a positive finite number. The first grid tried is
coarser than the number itself, and seventeen digits identify a double, so the
search ends well within its count of tries; the exact value reads back anyway. -/
def Format.shortest (f : Format) (tie : Tie) (significand : Nat) (exponent : Int) : Decimal :=
  let top := (Nat.log2 significand : Int) + exponent + 1
  let found := (f.interval significand exponent).search tie 24 (Int.fdiv (top * 30103) 100000 + 2)
  found.getD (.exact significand exponent)

end Docket.Numeral
