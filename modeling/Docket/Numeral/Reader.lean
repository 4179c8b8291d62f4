import Docket.Numeral.Binary

/-!
# Numbers read from text

Integers are an optional sign and decimal digits, within given bounds. Decimals
add a fraction, an exponent and the spelled special values, and are rounded once,
from their exact value, to the nearest pattern of a format.
-/
namespace Docket.Numeral

/-- The value of a decimal digit; digits of other scripts are not digits here. -/
def digit? (c : Char) : Option Nat :=
  if '0' ≤ c ∧ c ≤ '9' then some (c.toNat - '0'.toNat) else none

def takeDigits : List Char → List Nat × List Char
  | [] => ([], [])
  | c :: rest =>
      match digit? c with
      | some d => let (ds, after) := takeDigits rest; (d :: ds, after)
      | none => ([], c :: rest)

def ofDigits (digits : List Nat) : Nat :=
  digits.foldl (fun n d => 10 * n + d) 0

def natural? (text : List Char) : Option Nat :=
  match takeDigits text with
  | (d :: ds, []) => some (ofDigits (d :: ds))
  | _ => none

/-- An integer within bounds. A minus sign is read only where the bounds admit
negative numbers. -/
def integer? (low high : Int) (text : String) : Option Int :=
  let within (value : Int) : Option Int := if low ≤ value ∧ value ≤ high then some value else none
  match text.toList with
  | '+' :: digits => (natural? digits).bind fun n => within n
  | '-' :: digits => if low < 0 then (natural? digits).bind fun n => within (-n) else none
  | digits => (natural? digits).bind fun n => within n

/-- A sign in front of digits; no sign means plus. -/
def takeSign : List Char → Bool × List Char
  | '-' :: rest => (true, rest)
  | '+' :: rest => (false, rest)
  | rest => (false, rest)

/-- The size of an exponent. Once it has reached `2 ^ 16`, which no format needs,
its later digits are passed over. -/
def ofExponentDigits (digits : List Nat) : Nat :=
  digits.foldl (fun n d => if n < 2 ^ 16 then 10 * n + d else n) 0

/-- An exponent after its mark: a sign and at least one digit, then nothing. -/
def exponent? (text : List Char) : Option Int :=
  let (negative, digits) := takeSign text
  match takeDigits digits with
  | (d :: ds, []) =>
      let size : Int := ofExponentDigits (d :: ds)
      some (if negative then -size else size)
  | _ => none

/-- An unsigned decimal as `digits * 10 ^ power`. The point may stand first or
last, but some digit must stand beside it. -/
def decimal? (text : List Char) : Option (Nat × Int) :=
  let (whole, afterWhole) := takeDigits text
  let (fraction, afterFraction) := match afterWhole with
    | '.' :: rest => takeDigits rest
    | rest => ([], rest)
  let digits := whole ++ fraction
  if digits.isEmpty then none
  else
    let power := -(fraction.length : Int)
    match afterFraction with
    | [] => some (ofDigits digits, power)
    | c :: rest =>
        if c = 'e' ∨ c = 'E' then (exponent? rest).map fun e => (ofDigits digits, power + e)
        else none

namespace Format

/-- The pattern nearest to `digits * 10 ^ power`. Powers far outside the range
are settled by the place of the first digit alone. -/
def ofDecimal (f : Format) (negative : Bool) (digits : Nat) (power : Int) : Nat :=
  let leading := (toString digits).length + power
  let bound : Int := 2 ^ f.exponentBits
  if digits = 0 then f.signed negative 0
  else if bound < leading then f.signed negative f.infinity
  else if leading < -bound then f.signed negative 0
  else f.nearest negative ((Quotient.ofNat digits).scale 10 power)

/-- The pattern a text stands for. The names of infinity and of not-a-number are
read in any mix of cases and may carry a sign. -/
def parse? (f : Format) (text : String) : Option Nat :=
  let (negative, body) := takeSign text.toList
  match decimal? body with
  | some (digits, power) => some (f.ofDecimal negative digits power)
  | none =>
      let name := String.ofList (body.map Char.toLower)
      if name = "inf" ∨ name = "infinity" then some (f.signed negative f.infinity)
      else if name = "nan" then some (f.signed negative f.quietNan)
      else none

end Format

end Docket.Numeral
