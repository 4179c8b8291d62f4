import Docket.Text.Hex
import Docket.Text.Shape

/-!
# Text quoted for a reader

A quoted text stands between double quotes and shows every character without
doubt: quote and backslash behind a backslash, the usual blanks and the zero by
a letter or digit, and characters that cannot be seen by their code point.
-/
namespace Docket.Text

def quoteChar (c : Char) : List Char :=
  if c = '"' then ['\\', '"']
  else if c = '\\' then ['\\', '\\']
  else if c = '\n' then ['\\', 'n']
  else if c = '\r' then ['\\', 'r']
  else if c = '\t' then ['\\', 't']
  else if c = '\x00' then ['\\', '0']
  else if isPlain c then [c]
  else '\\' :: 'u' :: '\x7b' :: (hexOfNat c.toNat ++ ['\x7d'])

def quote (s : String) : String :=
  String.ofList ('"' :: (s.toList.flatMap quoteChar ++ ['"']))

end Docket.Text
