/-!
# Kinds of token

The kinds in their declared order, in which the four literal kinds stand together.

* `Kind.isLiteral_iff`: the literals are exactly the kinds from `string` to `bool`.
-/

namespace ParenLex

/-- What a token is. -/
inductive Kind
  | eof | error
  | whitespace | comment
  | string | integer | decimal | bool
  | openParen | closeParen | identifier
  deriving DecidableEq, Ord

namespace Kind

/-- The name shown to a reader. -/
def name : Kind → String
  | eof => "EOF"
  | error => "Error"
  | whitespace => "Whitespace"
  | comment => "Comment"
  | string => "String"
  | integer => "Integer"
  | decimal => "Decimal"
  | bool => "Bool"
  | openParen => "OpenParen"
  | closeParen => "CloseParen"
  | identifier => "Identifier"

/-- Every kind, in order. -/
def all : List Kind :=
  [eof, error, whitespace, comment, string, integer, decimal, bool, openParen, closeParen,
    identifier]

theorem mem_all (k : Kind) : k ∈ all := by cases k <;> decide

/-- The kind of that name. -/
def ofName? (s : String) : Option Kind := all.find? fun k => k.name == s

def isLiteral : Kind → Bool
  | string | integer | decimal | bool => true
  | _ => false

theorem isLiteral_iff (k : Kind) :
    k.isLiteral = true ↔ compare string k ≠ .gt ∧ compare k bool ≠ .gt := by
  cases k <;> decide

/-- The character that makes up or begins the structural kinds; a closing paren has its own, not
its partner's. -/
def delimiter? : Kind → Option Char
  | openParen => some '('
  | closeParen => some ')'
  | comment => some ';'
  | _ => none

end Kind

end ParenLex
