import ParenLex.Kind

/-!
# Classes of character

Structure is made of parens, the comment mark and four blanks, all ASCII; words are made of ASCII
letters, digits and the punctuation between `!` and `/` that has no other use. The classes look at
ASCII alone: every other character belongs to none of them.

* `ofChar_delimiter`: a delimiter is classified as the kind it delimits.
* `ofChar_of_isWordChar`: a word character has no structural meaning.
-/

namespace ParenLex

/-- The structural meaning of a character, `error` when it has none. -/
def Kind.ofChar : Char → Kind
  | '(' => .openParen
  | ')' => .closeParen
  | ';' => .comment
  | ' ' | '\t' | '\r' | '\n' => .whitespace
  | _ => .error

def isBlank (c : Char) : Bool := Kind.ofChar c == .whitespace

def isDigit (c : Char) : Bool := '0' ≤ c && c ≤ '9'

def isLetter (c : Char) : Bool := 'a' ≤ c && c ≤ 'z' || 'A' ≤ c && c ≤ 'Z'

/-- Punctuation from `!` to `/` that is neither structural nor the double quote. -/
def isSymbol (c : Char) : Bool :=
  '!' ≤ c && c ≤ '/' && c != '"' && Kind.ofChar c == .error

/-- Characters that words are made of. -/
def isWordChar (c : Char) : Bool := isLetter c || isDigit c || isSymbol c

theorem Kind.ofChar_delimiter {k : Kind} {c : Char} (h : k.delimiter? = some c) :
    ofChar c = k := by
  cases k <;> simp [delimiter?] at h <;> subst h <;> rfl

theorem isBlank_iff {c : Char} :
    isBlank c = true ↔ c = ' ' ∨ c = '\t' ∨ c = '\r' ∨ c = '\n' := by
  unfold isBlank Kind.ofChar
  split <;> simp_all

theorem isWordChar_of_isDigit {c : Char} (h : isDigit c = true) : isWordChar c = true := by
  simp [isWordChar, h]

theorem ofChar_of_isWordChar {c : Char} (h : isWordChar c = true) : Kind.ofChar c = .error := by
  unfold Kind.ofChar
  split
  case h_8 => rfl
  all_goals exact absurd h (by decide)

end ParenLex
