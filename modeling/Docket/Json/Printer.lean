import Docket.Json.Basic
import Docket.Numeral.Layout
import Docket.Text.Hex

/-!
# The text of a document value

Text is compact: no blank between tokens, fields in the order in which the
object lists them. Only the quote, the backslash and the control characters
below U+0020 are escaped; five of those have a letter, the others are written in
hexadecimal. Every other character stands for itself.
-/
namespace Docket.Json

open Text (hexDigit)

def escape (c : Char) : List Char :=
  if c = '"' then ['\\', '"']
  else if c = '\\' then ['\\', '\\']
  else if c = '\x08' then ['\\', 'b']
  else if c = '\t' then ['\\', 't']
  else if c = '\n' then ['\\', 'n']
  else if c = '\x0c' then ['\\', 'f']
  else if c = '\r' then ['\\', 'r']
  else if c < ' ' then ['\\', 'u', '0', '0', hexDigit (c.toNat / 16), hexDigit (c.toNat % 16)]
  else [c]

def quoted (s : String) : List Char :=
  '"' :: (s.toList.flatMap escape ++ ['"'])

/-- An integer in decimal, a double by the layout of documents. -/
def Number.text : Number → String
  | .integer value => toString value
  | .double bits => Numeral.Format.double.text .document bits.toNat

mutual

/-- The characters of a value, put in front of those that follow it. -/
def render : Json → List Char → List Char
  | null, after => 'n' :: 'u' :: 'l' :: 'l' :: after
  | bool true, after => 't' :: 'r' :: 'u' :: 'e' :: after
  | bool false, after => 'f' :: 'a' :: 'l' :: 's' :: 'e' :: after
  | number n, after => n.text.toList ++ after
  | string s, after => quoted s ++ after
  | array [], after => '[' :: ']' :: after
  | array (item :: rest), after => '[' :: item.render (renderItems rest after)
  | object [], after => '{' :: '}' :: after
  | object ((key, value) :: rest), after =>
      '{' :: (quoted key ++ ':' :: value.render (renderFields rest after))

def renderItems : List Json → List Char → List Char
  | [], after => ']' :: after
  | item :: rest, after => ',' :: item.render (renderItems rest after)

def renderFields : List (String × Json) → List Char → List Char
  | [], after => '}' :: after
  | (key, value) :: rest, after =>
      ',' :: (quoted key ++ ':' :: value.render (renderFields rest after))

end

def text (value : Json) : String :=
  String.ofList (value.render [])

end Docket.Json
