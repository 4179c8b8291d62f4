import Docket.Json.Basic
import Docket.Numeral.Reader

/-!
# Number literals of documents

A literal is a sign, digits without a superfluous zero, and optionally a
fraction and an exponent. A literal of digits alone is an integer while it fits
64 bits; every other literal is a double, got by collecting digits into 64 bits
and scaling them by a power of ten in double arithmetic. That scaling rounds
twice, so digits beyond the fifteenth may read as a neighbour of the nearest
double.
-/
namespace Docket.Json

open Numeral

structure Literal where
  negative : Bool
  whole : List Nat
  fraction : List Nat
  /-- The sign and the digits of the exponent. -/
  exponent : Option (Bool × List Nat)
  deriving DecidableEq, Repr

namespace Literal

/-- The digits before the point: a zero alone, or no leading zero. -/
def takeWhole (text : List Char) : Option (List Nat × List Char) :=
  match takeDigits text with
  | ([], _) => none
  | (0 :: _ :: _, _) => none
  | (digits, rest) => some (digits, rest)

/-- The fraction: a point with at least one digit, or nothing. -/
def takeFraction : List Char → Option (List Nat × List Char)
  | '.' :: rest =>
      match takeDigits rest with
      | ([], _) => none
      | (digits, rest) => some (digits, rest)
  | rest => some ([], rest)

/-- The exponent: a mark, a sign if there is one, at least one digit; or nothing. -/
def takeExponent (text : List Char) : Option (Option (Bool × List Nat) × List Char) :=
  match text with
  | c :: rest =>
      if c = 'e' ∨ c = 'E' then
        let (negative, digits) := takeSign rest
        match takeDigits digits with
        | ([], _) => none
        | (ds, rest) => some (some (negative, ds), rest)
      else some (none, text)
  | [] => some (none, [])

def take (text : List Char) : Option (Literal × List Char) := do
  let (negative, body) := match text with
    | '-' :: rest => (true, rest)
    | rest => (false, rest)
  let (whole, rest) ← takeWhole body
  let (fraction, rest) ← takeFraction rest
  let (exponent, rest) ← takeExponent rest
  return (⟨negative, whole, fraction, exponent⟩, rest)

/-- Collects digits before the point while they fit 64 bits; each later digit
raises the power of ten instead. -/
def collectWhole (significand : Nat) (power : Int) : List Nat → Nat × Int
  | [] => (significand, power)
  | d :: ds =>
      if power = 0 ∧ significand * 10 + d < 2 ^ 64 then collectWhole (significand * 10 + d) power ds
      else collectWhole significand (power + 1) ds

/-- Collects digits after the point while they fit 64 bits and drops the others. -/
def collectFraction (significand : Nat) (power : Int) : List Nat → Nat × Int
  | [] => (significand, power)
  | d :: ds =>
      if significand * 10 + d < 2 ^ 64 then collectFraction (significand * 10 + d) (power - 1) ds
      else (significand, power)

/-- Divides a double by `10 ^ power`, by at most `10 ^ 308` at a time. -/
def scaleDown (bits : Nat) (power : Nat) : Nat :=
  if power ≤ 308 then
    Format.double.nearest false
      ((Format.double.magnitude bits).div (Format.double.magnitude (Format.double.nearest false ⟨10 ^ power, 1⟩)))
  else if bits = 0 then 0
  else
    scaleDown
      (Format.double.nearest false
        ((Format.double.magnitude bits).div (Format.double.magnitude (Format.double.nearest false ⟨10 ^ 308, 1⟩))))
      (power - 308)
termination_by power

/-- A double times `10 ^ power`; none if that leaves the range. -/
def scaleUp (bits : Nat) (power : Nat) : Option Nat :=
  if power ≤ 308 then
    let scaled := Format.double.nearest false
      ((Format.double.magnitude bits).mul (Format.double.magnitude (Format.double.nearest false ⟨10 ^ power, 1⟩)))
    if scaled = Format.double.infinity then none else some scaled
  else if bits = 0 then some 0
  else none

/-- The double that `significand * 10 ^ power` is read as. -/
def double? (negative : Bool) (significand : Nat) (power : Int) : Option Number :=
  let start := Format.double.nearest false (.ofNat significand)
  let scaled := match power with
    | .ofNat n => scaleUp start n
    | .negSucc n => some (scaleDown start (n + 1))
  scaled.map fun bits => .double (Format.double.signed negative bits).toUInt64

/-- The number a literal stands for; none if it is beyond the largest double. A
negative literal without fraction is a double too when it is zero or does not
fit a signed integer. -/
def number? (l : Literal) : Option Number :=
  let (significand, power) := collectWhole 0 0 l.whole
  match l.fraction, l.exponent with
  | [], none =>
      if power = 0 then
        if !l.negative then some (.integer significand)
        else if significand = 0 ∨ 2 ^ 63 < significand then double? true significand 0
        else some (.integer (-significand))
      else double? l.negative significand power
  | fraction, exponent =>
      let (significand, power) := collectFraction significand power fraction
      match exponent with
      | none => double? l.negative significand power
      | some (below, digits) =>
          let e : Int := ofDigits digits
          if e < 2 ^ 31 then double? l.negative significand (if below then power - e else power + e)
          else if below ∨ significand = 0 then some (.double (Format.double.signed l.negative 0).toUInt64)
          else none

end Literal

end Docket.Json
