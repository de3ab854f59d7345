import ParenLex.CharClass

/-!
# Words

A word is a maximal run of word characters. It is a literal when the longest literal at its head is
all of it, and an identifier otherwise.
-/

namespace ParenLex

/-- The shapes of a literal word. -/
inductive Literal
  | bool | integer | decimal
  deriving DecidableEq

namespace Literal

/-- Digits, by count, unless there are none. -/
def digits? (cs : List Char) : Option Nat :=
  match (cs.takeWhile isDigit).length with
  | 0 => none
  | n => some n

/-- The length of the longest literal of this shape at the head of a text. A boolean is `true` or
`false`, an integer one or more digits, and a decimal any digits, a point and one or more digits. -/
def length? : Literal → List Char → Option Nat
  | bool, cs =>
    if "true".toList.isPrefixOf cs then some 4
    else if "false".toList.isPrefixOf cs then some 5
    else none
  | integer, cs => digits? cs
  | decimal, cs =>
    match cs.dropWhile isDigit with
    | '.' :: rest => (digits? rest).map ((cs.takeWhile isDigit).length + 1 + ·)
    | _ => none

def kind : Literal → Kind
  | bool => .bool
  | integer => .integer
  | decimal => .decimal

def all : List Literal := [bool, integer, decimal]

/-- The longer of two matches, the first on a tie. -/
def longer (a b : Option (Literal × Nat)) : Option (Literal × Nat) :=
  match a, b with
  | some (l, n), some (k, m) => if n < m then some (k, m) else some (l, n)
  | none, b => b
  | a, none => a

/-- The longest literal at the head of a text, with its length. -/
def longest? (cs : List Char) : Option (Literal × Nat) :=
  (all.map fun l => (l.length? cs).map (l, ·)).foldl longer none

end Literal

/-- The kind of a word. -/
def Kind.ofWord (cs : List Char) : Kind :=
  match Literal.longest? cs with
  | some (l, n) => if n = cs.length then l.kind else .identifier
  | none => .identifier

/-- A word that begins with a digit, by its parts: the digits, the digits after a point if a point
follows them, and the word characters after that. -/
structure Numeral where
  digits : List Char
  fraction : Option (List Char)
  rest : List Char

namespace Numeral

def text (n : Numeral) : List Char :=
  match n.fraction with
  | some ds => n.digits ++ '.' :: ds ++ n.rest
  | none => n.digits ++ n.rest

/-- The kind of a numeral: that of its parts as long as nothing comes after them. -/
def kind (n : Numeral) : Kind :=
  match n.fraction, n.rest with
  | none, [] => .integer
  | some [], [] => .identifier
  | some _, [] => .decimal
  | _, _ => .ofWord n.text

end Numeral

end ParenLex
