import ParenLex.Text.ByteSize

/-!
# Locations in a text

A byte offset splits a text into the characters that end at or before it and the rest. The location
of the offset is the number of its line, its column in characters, both from 1, and the line itself.
-/

namespace ParenLex.Report

/-- The characters of `cs` that end at or before byte `n`, nearest to it first and put onto `acc`,
and the rest. -/
def splitBytesOnto (acc : List Char) : List Char → Nat → List Char × List Char
  | [], _ => (acc, [])
  | c :: cs, n =>
    if c.utf8Size ≤ n then splitBytesOnto (c :: acc) cs (n - c.utf8Size) else (acc, c :: cs)

/-- The characters before byte `n`, nearest first, and the characters from there on. -/
def splitBytes (cs : List Char) (n : Nat) : List Char × List Char := splitBytesOnto [] cs n

/-- The character that starts at byte `n`, if one does. -/
def charAt? (cs : List Char) (n : Nat) : Option Char :=
  match splitBytes cs n with
  | (before, rest) => if byteSize before = n then rest.head? else none

/-- A line with the offset of its first byte, and a column in it. -/
structure Location where
  line : Nat
  column : Nat
  lineStart : Nat
  lineText : List Char

/-- The line without the line ends and NULs at its end. -/
def trimEnd (cs : List Char) : List Char :=
  (cs.reverse.dropWhile fun c => c = '\n' || c = '\r' || c = '\x00').reverse

/-- The location of byte `n`: on the last line that starts at or before it. -/
def locate (cs : List Char) (n : Nat) : Location :=
  match splitBytes cs n with
  | (before, rest) =>
    let head := before.takeWhile (· ≠ '\n')
    { line := 1 + before.count '\n'
      column := 1 + head.length
      lineStart := byteSize (before.dropWhile (· ≠ '\n'))
      lineText := trimEnd (head.reverse ++ rest.takeWhile (· ≠ '\n')) }

end ParenLex.Report
