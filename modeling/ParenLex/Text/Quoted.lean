/-!
# Quoted text

A text between double quotes, in which quotes, backslashes and a given set of hidden characters are
written as escapes: `\"`, `\\`, `\t`, `\r`, `\n`, `\0`, and the code point in lower case hexadecimal
between braces after `\u` for the rest.
-/

namespace ParenLex.Text.Quoted

/-- How a character is written between quotes. -/
def escape (hidden : Char → Bool) (c : Char) : List Char :=
  if c = '"' then ['\\', '"']
  else if c = '\\' then ['\\', '\\']
  else if c = '\t' then ['\\', 't']
  else if c = '\r' then ['\\', 'r']
  else if c = '\n' then ['\\', 'n']
  else if c = '\x00' then ['\\', '0']
  else if hidden c then ['\\', 'u', '\x7b'] ++ Nat.toDigits 16 c.toNat ++ ['\x7d']
  else [c]

/-- The text between double quotes, each character written as `escape` says. -/
def encode (hidden : Char → Bool) (cs : List Char) : List Char :=
  '"' :: cs.flatMap (escape hidden) ++ ['"']

end ParenLex.Text.Quoted
