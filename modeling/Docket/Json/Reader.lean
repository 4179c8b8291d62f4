import Docket.Json.Number
import Docket.Text.Hex

/-!
# Reading document values from text

`Json.read?` reads a whole text as one value. Objects keep their fields in the
order of the text, repeated keys included. `skipValue` passes over a value that
nobody asked for: it checks the form, but builds neither strings nor numbers, so
it also passes over escapes and numbers that stand for nothing.
-/
namespace Docket.Json

open Text (hexValue?)

def isBlank (c : Char) : Bool :=
  c = ' ' || c = '\t' || c = '\n' || c = '\r'

def skipBlank : List Char → List Char
  | [] => []
  | c :: rest => if isBlank c then skipBlank rest else c :: rest

def unit? (a b c d : Char) : Option Nat := do
  let a ← hexValue? a
  let b ← hexValue? b
  let c ← hexValue? c
  let d ← hexValue? d
  return ((a * 16 + b) * 16 + c) * 16 + d

/-- The character behind a backslash, except for those written in hexadecimal. -/
def shortEscape? (c : Char) : Option Char :=
  if c = '"' then some '"'
  else if c = '\\' then some '\\'
  else if c = '/' then some '/'
  else if c = 'b' then some '\x08'
  else if c = 'f' then some '\x0c'
  else if c = 'n' then some '\n'
  else if c = 'r' then some '\r'
  else if c = 't' then some '\t'
  else none

def pair (high low : Nat) : Char :=
  Char.ofNat (0x10000 + (high - 0xd800) * 0x400 + (low - 0xdc00))

/-- The characters of a string up to its closing quote, gathered in reverse. A
surrogate must be half of a pair, and control characters must be escaped. -/
def takeString (gathered : List Char) : List Char → Option (String × List Char)
  | [] => none
  | '"' :: rest => some (String.ofList gathered.reverse, rest)
  | '\\' :: 'u' :: a :: b :: c :: d :: rest =>
      match unit? a b c d with
      | none => none
      | some unit =>
          if 0xdc00 ≤ unit ∧ unit ≤ 0xdfff then none
          else if 0xd800 ≤ unit ∧ unit ≤ 0xdbff then
            match rest with
            | '\\' :: 'u' :: e :: f :: g :: h :: rest =>
                match unit? e f g h with
                | none => none
                | some low =>
                    if 0xdc00 ≤ low ∧ low ≤ 0xdfff then takeString (pair unit low :: gathered) rest
                    else none
            | _ => none
          else takeString (Char.ofNat unit :: gathered) rest
  | '\\' :: c :: rest =>
      match shortEscape? c with
      | some escaped => takeString (escaped :: gathered) rest
      | none => none
  | c :: rest => if c < ' ' ∨ c = '\\' then none else takeString (c :: gathered) rest

def expect (c : Char) : List Char → Option (List Char)
  | [] => none
  | d :: rest => if c = d then some rest else none

def expectAll : List Char → List Char → Option (List Char)
  | [], text => some text
  | c :: cs, text => (expect c text).bind (expectAll cs)

mutual

/-- Reads the value that a text begins with; the first argument bounds the depth
of nesting together with the number of parts. -/
def takeValue : Nat → List Char → Option (Json × List Char)
  | 0, _ => none
  | fuel + 1, text =>
      match skipBlank text with
      | [] => none
      | 'n' :: rest => (expectAll ['u', 'l', 'l'] rest).map fun rest => (null, rest)
      | 't' :: rest => (expectAll ['r', 'u', 'e'] rest).map fun rest => (bool true, rest)
      | 'f' :: rest => (expectAll ['a', 'l', 's', 'e'] rest).map fun rest => (bool false, rest)
      | '"' :: rest => (takeString [] rest).map fun (s, rest) => (string s, rest)
      | '[' :: rest =>
          match skipBlank rest with
          | ']' :: rest => some (array [], rest)
          | rest => (takeItems fuel [] rest).map fun (items, rest) => (array items, rest)
      | '\x7b' :: rest =>
          match skipBlank rest with
          | '\x7d' :: rest => some (object [], rest)
          | rest => (takeFields fuel [] rest).map fun (fields, rest) => (object fields, rest)
      | c :: rest =>
          match Literal.take (c :: rest) with
          | none => none
          | some (literal, rest) => literal.number?.map fun n => (number n, rest)

/-- Reads items up to the closing bracket, gathered in reverse. -/
def takeItems : Nat → List Json → List Char → Option (List Json × List Char)
  | 0, _, _ => none
  | fuel + 1, gathered, text =>
      match takeValue fuel text with
      | none => none
      | some (item, rest) =>
          match skipBlank rest with
          | ',' :: rest => takeItems fuel (item :: gathered) rest
          | ']' :: rest => some ((item :: gathered).reverse, rest)
          | _ => none

/-- Reads fields up to the closing brace, gathered in reverse. -/
def takeFields : Nat → List (String × Json) → List Char →
    Option (List (String × Json) × List Char)
  | 0, _, _ => none
  | fuel + 1, gathered, text =>
      match skipBlank text with
      | '"' :: rest =>
          match takeString [] rest with
          | none => none
          | some (key, rest) =>
              match skipBlank rest with
              | ':' :: rest =>
                  match takeValue fuel rest with
                  | none => none
                  | some (value, rest) =>
                      match skipBlank rest with
                      | ',' :: rest => takeFields fuel ((key, value) :: gathered) rest
                      | '\x7d' :: rest => some (((key, value) :: gathered).reverse, rest)
                      | _ => none
              | _ => none
      | _ => none

end

/-- Reads a whole text as one value, blanks around it allowed. Each step of the
reader uses up a character, so the length of the text bounds them. -/
def read? (text : String) : Option Json :=
  let chars := text.toList
  match takeValue (2 * chars.length + 1) chars with
  | some (value, rest) => if (skipBlank rest).isEmpty then some value else none
  | none => none

def skipString : List Char → Option (List Char)
  | [] => none
  | '"' :: rest => some rest
  | '\\' :: 'u' :: a :: b :: c :: d :: rest =>
      match unit? a b c d with
      | some _ => skipString rest
      | none => none
  | '\\' :: c :: rest =>
      match shortEscape? c with
      | some _ => skipString rest
      | none => none
  | c :: rest => if c < ' ' ∨ c = '\\' then none else skipString rest

mutual

def skipValue : Nat → List Char → Option (List Char)
  | 0, _ => none
  | fuel + 1, text =>
      match skipBlank text with
      | [] => none
      | 'n' :: rest => expectAll ['u', 'l', 'l'] rest
      | 't' :: rest => expectAll ['r', 'u', 'e'] rest
      | 'f' :: rest => expectAll ['a', 'l', 's', 'e'] rest
      | '"' :: rest => skipString rest
      | '[' :: rest =>
          match skipBlank rest with
          | ']' :: rest => some rest
          | rest => skipItems fuel rest
      | '\x7b' :: rest =>
          match skipBlank rest with
          | '\x7d' :: rest => some rest
          | rest => skipFields fuel rest
      | c :: rest => (Literal.take (c :: rest)).map Prod.snd

def skipItems : Nat → List Char → Option (List Char)
  | 0, _ => none
  | fuel + 1, text =>
      match skipValue fuel text with
      | none => none
      | some rest =>
          match skipBlank rest with
          | ',' :: rest => skipItems fuel rest
          | ']' :: rest => some rest
          | _ => none

def skipFields : Nat → List Char → Option (List Char)
  | 0, _ => none
  | fuel + 1, text =>
      match skipBlank text with
      | '"' :: rest =>
          match (skipString rest).map skipBlank with
          | some (':' :: rest) =>
              match (skipValue fuel rest).map skipBlank with
              | some (',' :: rest) => skipFields fuel rest
              | some ('\x7d' :: rest) => some rest
              | _ => none
          | _ => none
      | _ => none

end

end Docket.Json
