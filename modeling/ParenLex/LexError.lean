import ParenLex.Text.Hex

/-!
# Lexical errors

Why no token can be formed where the text stands.
-/

namespace ParenLex

/-- The obstacle: a character out of place, bytes that have no meaning there, or the end of the
input with parens open. -/
inductive LexError
  | character (c : Char)
  | bytes (bs : List UInt8)
  | endOfInput
  deriving DecidableEq

def LexError.message : LexError → String
  | character c => "Unexpected " ++ c.toString
  | bytes bs => "Unexpected sequence: " ++ String.ofList (Text.Hex.ofBytes bs)
  | endOfInput => "Unexpected EOF"

end ParenLex
