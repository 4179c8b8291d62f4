import Docket.Numeral.Power

/-!
# Binary floating-point numbers as bit patterns

A format says how many bits hold the exponent and the fraction. `Format.read`
takes a pattern apart into sign, significand and power of two, `Format.nearest`
goes back from an exact quotient, rounding to nearest with ties to the even
significand. All arithmetic is on natural numbers and integers.
-/
namespace Docket.Numeral

structure Format where
  exponentBits : Nat
  fractionBits : Nat
  deriving DecidableEq, Repr

namespace Format

def single : Format := ⟨8, 23⟩

def double : Format := ⟨11, 52⟩

/-- The power of two that one unit of a subnormal significand stands for. -/
def leastExponent (f : Format) : Int :=
  2 - 2 ^ (f.exponentBits - 1) - f.fractionBits

/-- The pattern of positive infinity; every finite magnitude lies below it. -/
def infinity (f : Format) : Nat :=
  (2 ^ f.exponentBits - 1) * 2 ^ f.fractionBits

/-- The pattern of negative zero, which holds the sign bit alone. -/
def signBit (f : Format) : Nat :=
  2 ^ (f.exponentBits + f.fractionBits)

/-- The quiet not-a-number with an empty payload. -/
def quietNan (f : Format) : Nat :=
  f.infinity + 2 ^ (f.fractionBits - 1)

def signed (f : Format) (negative : Bool) (magnitude : Nat) : Nat :=
  if negative then f.signBit + magnitude else magnitude

def isNan (f : Format) (bits : Nat) : Bool :=
  f.infinity < bits % f.signBit

/-- Equality of patterns as numbers: the two zeros are equal, and a pattern that
is not a number equals nothing. -/
def equal (f : Format) (a b : Nat) : Bool :=
  !f.isNan a && !f.isNan b && (a == b || (a % f.signBit == 0 && b % f.signBit == 0))

end Format

/-- What a bit pattern stands for; a finite number is `significand * 2 ^ exponent`. -/
inductive Reading where
  | finite (negative : Bool) (significand : Nat) (exponent : Int)
  | infinite (negative : Bool)
  | notANumber
  deriving DecidableEq, Repr

def Format.read (f : Format) (bits : Nat) : Reading :=
  let fraction := bits % 2 ^ f.fractionBits
  let exponent := bits / 2 ^ f.fractionBits % 2 ^ f.exponentBits
  let negative := bits / f.signBit % 2 = 1
  if exponent = 2 ^ f.exponentBits - 1 then
    if fraction = 0 then .infinite negative else .notANumber
  else if exponent = 0 then .finite negative fraction f.leastExponent
  else .finite negative (2 ^ f.fractionBits + fraction) (f.leastExponent + exponent - 1)

/-- Which neighbour a fraction halfway between two integers goes to. -/
inductive Tie where
  | even
  | up
  deriving DecidableEq, Repr

def Tie.pick (tie : Tie) (low : Nat) : Nat :=
  match tie with
  | .even => low + low % 2
  | .up => low + 1

/-- A non-negative fraction; the denominator is meant to be positive. -/
structure Quotient where
  numerator : Nat
  denominator : Nat
  deriving DecidableEq, Repr

namespace Quotient

def ofNat (n : Nat) : Quotient := ⟨n, 1⟩

def mul (a b : Quotient) : Quotient :=
  ⟨a.numerator * b.numerator, a.denominator * b.denominator⟩

def div (a b : Quotient) : Quotient :=
  ⟨a.numerator * b.denominator, a.denominator * b.numerator⟩

def scale (q : Quotient) (base : Nat) : Int → Quotient
  | .ofNat n => ⟨q.numerator * base ^ n, q.denominator⟩
  | .negSucc n => ⟨q.numerator, q.denominator * base ^ (n + 1)⟩

def floor (q : Quotient) : Nat :=
  q.numerator / q.denominator

def round (q : Quotient) (tie : Tie) : Nat :=
  let low := q.numerator / q.denominator
  let twice := 2 * (q.numerator % q.denominator)
  if twice < q.denominator then low
  else if q.denominator < twice then low + 1
  else tie.pick low

/-- Whichever way ties go, the rounded value is at most half a unit away. -/
theorem round_near (q : Quotient) (tie : Tie) (positive : 0 < q.denominator) :
    2 * q.numerator ≤ (2 * q.round tie + 1) * q.denominator ∧
      2 * q.round tie * q.denominator ≤ 2 * q.numerator + q.denominator := by
  have split := Nat.div_add_mod q.numerator q.denominator
  have small := Nat.mod_lt q.numerator positive
  rw [Nat.mul_comm] at split
  have choice : q.round tie = q.numerator / q.denominator ∧
        2 * (q.numerator % q.denominator) ≤ q.denominator ∨
      q.round tie = q.numerator / q.denominator + 1 ∧
        q.denominator ≤ 2 * (q.numerator % q.denominator) := by
    have parity := Nat.mod_two_eq_zero_or_one (q.numerator / q.denominator)
    cases tie <;> grind [round, Tie.pick]
  rcases choice with ⟨h, near⟩ | ⟨h, near⟩ <;> rw [h] <;> constructor <;> grind

/-- The greatest `k` with `2 ^ k` at most the fraction, for a positive fraction. -/
def log2 (q : Quotient) : Int :=
  let guess : Int := (Nat.log2 q.numerator : Int) - Nat.log2 q.denominator
  if 0 < (q.scale 2 (-guess)).floor then guess else guess - 1

end Quotient

namespace Format

/-- The exact value of a finite pattern, its sign left out. -/
def magnitude (f : Format) (bits : Nat) : Quotient :=
  match f.read bits with
  | .finite _ significand exponent => (Quotient.ofNat significand).scale 2 exponent
  | _ => ⟨0, 1⟩

/-- The pattern nearest to a fraction, infinity when the range is left. The
exponent is the least for which the significand fits, and a significand that
rounds up to the next power of two carries into the exponent field. -/
def nearest (f : Format) (negative : Bool) (q : Quotient) : Nat :=
  if q.numerator = 0 then f.signed negative 0
  else
    let exponent := max (q.log2 - f.fractionBits) f.leastExponent
    let significand := (q.scale 2 (-exponent)).round .even
    let step := (exponent - f.leastExponent).toNat
    f.signed negative (min (step * 2 ^ f.fractionBits + significand) f.infinity)

end Format

end Docket.Numeral
