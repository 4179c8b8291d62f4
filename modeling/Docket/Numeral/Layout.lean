import Docket.Numeral.Shortest

/-!
# How a number is written

The digits of a number are chosen by `Format.shortest`; a layout decides which of
two equally near decimals is taken, where the point stands, when an exponent is
written and how the special values are spelled. Documents and scalar fields write their numbers by different layouts.
-/
namespace Docket.Numeral

structure Layout where
  /-- Whether a number with this exponent of ten is written without an exponent. -/
  positional : Int → Bool
  /-- Whether an integral number still gets a point and a zero. -/
  keepsPoint : Bool
  /-- Which of two equally near shortest decimals is written. -/
  tie : Tie
  infinite : String
  notANumber : String

/-- Numbers inside documents: positional from `10 ^ -5` up to `10 ^ 16`, and
always told apart from an integer by a point or an exponent. A tie goes to the
even digit. -/
def Layout.document : Layout where
  positional e := decide (-5 ≤ e ∧ e < 16)
  keepsPoint := true
  tie := .even
  infinite := "null"
  notANumber := "null"

/-- Numbers inside scalar fields: every digit is written out, and a tie goes away
from zero. -/
def Layout.field : Layout where
  positional _ := true
  keepsPoint := false
  tie := .up
  infinite := "inf"
  notANumber := "NaN"

namespace Decimal

def digitText (d : Decimal) : List Char :=
  (toString d.digits).toList

/-- The exponent of ten of the first digit. -/
def leading (d : Decimal) : Int :=
  d.digitText.length + d.power - 1

def positional (d : Decimal) (keepsPoint : Bool) : List Char :=
  let digits := d.digitText
  let whole := digits.length + d.power
  if 0 ≤ d.power then
    digits ++ List.replicate d.power.toNat '0' ++ (if keepsPoint then ['.', '0'] else [])
  else if 0 < whole then
    digits.take whole.toNat ++ '.' :: digits.drop whole.toNat
  else
    '0' :: '.' :: (List.replicate (-whole).toNat '0' ++ digits)

/-- One digit before the point and the exponent with its sign. -/
def scientific (d : Decimal) : List Char :=
  let mantissa := match d.digitText with
    | [] => []
    | [only] => [only]
    | first :: rest => first :: '.' :: rest
  let exponent := d.leading
  mantissa ++ 'e' :: (if 0 ≤ exponent then '+' else '-') :: (toString exponent.natAbs).toList

def text (d : Decimal) (layout : Layout) : List Char :=
  if layout.positional d.leading then d.positional layout.keepsPoint else d.scientific

end Decimal

/-- The text of a bit pattern. Zero has no shortest form of its own: it is one
digit, with the sign it carries. -/
def Format.text (f : Format) (layout : Layout) (bits : Nat) : String :=
  let sign (negative : Bool) (chars : List Char) := String.ofList (if negative then '-' :: chars else chars)
  match f.read bits with
  | .finite negative 0 _ => sign negative (Decimal.text ⟨0, 0⟩ layout)
  | .finite negative significand exponent =>
      sign negative ((f.shortest layout.tie significand exponent).text layout)
  | .infinite negative => sign negative layout.infinite.toList
  | .notANumber => layout.notANumber

end Docket.Numeral
