import ParenLex.CharClass
import ParenLex.Position
import ParenLex.Text.Quoted
import ParenLex.Unicode.Extending
import ParenLex.Unicode.Unprintable

/-!
# Tokens

A token is a kind, a text and the position it starts at. An error carries its message as its text,
and the token at the end of the input has none.
-/

namespace ParenLex

structure Token where
  kind : Kind
  text : String
  position : Position
  deriving DecidableEq

namespace Token

/-- The token at the end of the input. -/
def eof (p : Position) : Token := ⟨.eof, "", p⟩

def error (message : String) (p : Position) : Token := ⟨.error, message, p⟩

def isEof (t : Token) : Bool := t.kind == .eof

def isError (t : Token) : Bool := t.kind == .error

/-- Characters that a shown text does not print as themselves: those that would join what stands
before them, and those without a shape of their own; of ASCII, the controls alone. -/
def isHidden (c : Char) : Bool :=
  if c.toNat < 0x7F then c.toNat < 0x20
  else Unicode.extending.contains c || Unicode.unprintable.contains c || Unicode.fillers.contains c

/-- Line, column, kind and quoted text, on one line. -/
def display (t : Token) : String :=
  t.position.display ++ " " ++ t.kind.name ++ " " ++
    String.ofList (Text.Quoted.encode isHidden t.text.toList)

end Token

end ParenLex
