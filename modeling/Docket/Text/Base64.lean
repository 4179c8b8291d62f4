/-!
# Base64 with padding

Three bytes are written as four symbols of six bits; a last group of one or two
bytes is filled up with `=`. Reading accepts exactly what writing produces: the
padding must be complete and the bits that no byte uses must be zero. A text is
judged in blocks of eight symbols, and padding may stand in the last block only.
-/
namespace Docket.Text.Base64

def alphabet : List Char :=
  "ABCDEFGHIJKLMNOPQRSTUVWXYZabcdefghijklmnopqrstuvwxyz0123456789+/".toList

def symbol (n : Nat) : Char :=
  alphabet.getD n 'A'

/-- The number of a symbol, given as a byte of the text. -/
def value? (b : UInt8) : Option Nat :=
  let n := b.toNat
  if 65 ≤ n ∧ n ≤ 90 then some (n - 65)
  else if 97 ≤ n ∧ n ≤ 122 then some (n - 71)
  else if 48 ≤ n ∧ n ≤ 57 then some (n + 4)
  else if n = 43 then some 62
  else if n = 47 then some 63
  else none

def pad : UInt8 := 61

def symbols : List UInt8 → List Char
  | [] => []
  | [a] =>
      let n := a.toNat * 16
      [symbol (n / 64), symbol (n % 64), '=', '=']
  | [a, b] =>
      let n := (a.toNat * 256 + b.toNat) * 4
      [symbol (n / 4096), symbol (n / 64 % 64), symbol (n % 64), '=']
  | a :: b :: c :: rest =>
      let n := (a.toNat * 256 + b.toNat) * 256 + c.toNat
      symbol (n / 262144) :: symbol (n / 4096 % 64) :: symbol (n / 64 % 64) :: symbol (n % 64) ::
        symbols rest

def encode (bytes : List UInt8) : String :=
  String.ofList (symbols bytes)

/-- Why a text is not base64. Offsets count bytes of the text. -/
inductive Fault where
  | badByte (byte : UInt8) (offset : Nat)
  | badLength
  | badLastSymbol (byte : UInt8) (offset : Nat)
  | badPadding
  deriving DecidableEq, Repr

def Fault.message : Fault → String
  | .badByte byte offset => s!"Invalid byte {byte.toNat}, offset {offset}."
  | .badLength => "Encoded text cannot have a 6-bit remainder."
  | .badLastSymbol byte offset => s!"Invalid last symbol {byte.toNat}, offset {offset}."
  | .badPadding => "Invalid padding"

/-- The numbers of symbols among which no padding is allowed. -/
def values (offset : Nat) : List UInt8 → Except Fault (List Nat)
  | [] => .ok []
  | b :: rest =>
      match value? b with
      | none => .error (.badByte b offset)
      | some v => (values (offset + 1) rest).map (v :: ·)

/-- The bytes of symbol numbers, and the number left over when the bits do not
end with a byte. -/
def unpack : List Nat → List UInt8 × Nat
  | a :: b :: c :: d :: rest =>
      let n := ((a * 64 + b) * 64 + c) * 64 + d
      let (bytes, left) := unpack rest
      (UInt8.ofNat (n / 65536) :: UInt8.ofNat (n / 256) :: UInt8.ofNat n :: bytes, left)
  | [a, b, c] =>
      let n := (a * 64 + b) * 64 + c
      ([UInt8.ofNat (n / 1024), UInt8.ofNat (n / 4)], n % 4)
  | [a, b] =>
      let n := a * 64 + b
      ([UInt8.ofNat (n / 16)], n % 16)
  | [a] => ([], a)
  | [] => ([], 0)

structure Tail where
  values : List Nat := []
  lastSymbol : UInt8 := 0
  /-- How many padding signs have been seen, and where the first of them stood. -/
  padding : Nat := 0
  firstPadding : Nat := 0

/-- One more byte of the last block, which begins at `start`. Padding is allowed
in the third and fourth place of a group of four, and nothing may follow it; where
something does, the first padding sign is the byte to blame. -/
def Tail.push (t : Tail) (start index : Nat) (b : UInt8) : Except Fault Tail :=
  let firstPadding := if t.padding = 0 then index else t.firstPadding
  if b = pad then
    if index % 4 < 2 then .error (.badByte pad (start + firstPadding))
    else .ok { t with padding := t.padding + 1, firstPadding }
  else if 0 < t.padding then .error (.badByte pad (start + firstPadding))
  else match value? b with
    | none => .error (.badByte b (start + index))
    | some v => .ok { t with values := t.values ++ [v], lastSymbol := b }

def Tail.read (t : Tail) (start index : Nat) : List UInt8 → Except Fault Tail
  | [] => .ok t
  | b :: rest => (t.push start index b).bind fun t => t.read start (index + 1) rest

/-- The bytes of the last block: groups of four must be complete, and the bits
left over must be zero. -/
def Tail.bytes (t : Tail) (start : Nat) : Except Fault (List UInt8) :=
  if (t.padding + t.values.length) % 4 ≠ 0 then .error .badPadding
  else match unpack t.values with
    | (bytes, 0) => .ok bytes
    | _ => .error (.badLastSymbol t.lastSymbol (start + t.values.length - 1))

/-- The bytes of a text, given as bytes itself. A length that leaves one symbol
over is refused before the symbols are looked at, except that a last byte which
is no symbol is named first. -/
def decodeBytes (text : List UInt8) : Except Fault (List UInt8) :=
  let length := text.length
  if length % 4 = 1 then
    match text.getLast? with
    | some b =>
        if b ≠ pad ∧ (value? b).isNone then .error (.badByte b (length - 1)) else .error .badLength
    | none => .error .badLength
  else do
    let start := 8 * ((length - 1) / 8)
    let head ← values 0 (text.take start)
    let tail ← Tail.read {} start 0 (text.drop start)
    let last ← tail.bytes start
    return (unpack head).1 ++ last

def decode (text : String) : Except Fault (List UInt8) :=
  decodeBytes text.toUTF8.data.toList

end Docket.Text.Base64
