/-!
# Text as bytes

Strings are stored in UTF-8. `Utf8.decode` refuses bytes that are no such text
and says where the first fault lies: at which byte, and whether the bytes from
there on are wrong or merely end too soon.
-/
namespace Docket.Text.Utf8

def encode (s : String) : List UInt8 :=
  s.toUTF8.data.toList

/-- The first place where bytes stop being text. -/
structure Fault where
  /-- How many bytes before it are text. -/
  index : Nat
  /-- How many bytes cannot begin a character; none if the bytes end inside one. -/
  wrong : Option Nat
  deriving DecidableEq, Repr

def Fault.message (f : Fault) : String :=
  match f.wrong with
  | some n => s!"invalid utf-8 sequence of {n} bytes from index {f.index}"
  | none => s!"incomplete utf-8 byte sequence from index {f.index}"

/-- Whether a byte may follow the first byte of a character. -/
def isContinuation (b : UInt8) : Bool :=
  0x80 ≤ b && b ≤ 0xbf

/-- The bounds of the second byte of a character of three or four bytes; they
keep out overlong forms, surrogates and code points beyond the last. -/
def secondWithin (first second : UInt8) : Bool :=
  let low : UInt8 := if first = 0xe0 then 0xa0 else if first = 0xf0 then 0x90 else 0x80
  let high : UInt8 := if first = 0xed then 0x9f else if first = 0xf4 then 0x8f else 0xbf
  low ≤ second && second ≤ high

def fault? (index : Nat) : List UInt8 → Option Fault
  | [] => none
  | a :: rest =>
      if a < 0x80 then fault? (index + 1) rest
      else if 0xc2 ≤ a ∧ a ≤ 0xdf then
        match rest with
        | [] => some ⟨index, none⟩
        | b :: rest => if isContinuation b then fault? (index + 2) rest else some ⟨index, some 1⟩
      else if 0xe0 ≤ a ∧ a ≤ 0xef then
        match rest with
        | [] => some ⟨index, none⟩
        | b :: rest =>
            if !secondWithin a b then some ⟨index, some 1⟩
            else match rest with
            | [] => some ⟨index, none⟩
            | c :: rest => if isContinuation c then fault? (index + 3) rest else some ⟨index, some 2⟩
      else if 0xf0 ≤ a ∧ a ≤ 0xf4 then
        match rest with
        | [] => some ⟨index, none⟩
        | b :: rest =>
            if !secondWithin a b then some ⟨index, some 1⟩
            else match rest with
            | [] => some ⟨index, none⟩
            | c :: rest =>
                if !isContinuation c then some ⟨index, some 2⟩
                else match rest with
                | [] => some ⟨index, none⟩
                | d :: rest => if isContinuation d then fault? (index + 4) rest else some ⟨index, some 3⟩
      else some ⟨index, some 1⟩

/-- The text of bytes. The fault search runs only on bytes that are no text. -/
def decode (bytes : List UInt8) : Except Fault String :=
  match String.fromUTF8? ⟨bytes.toArray⟩ with
  | some s => .ok s
  | none => .error ((fault? 0 bytes).getD ⟨0, none⟩)

end Docket.Text.Utf8
