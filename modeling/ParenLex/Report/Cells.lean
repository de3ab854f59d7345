import ParenLex.Unicode.Wide
import ParenLex.Unicode.ZeroWidth

/-!
# Cells of a line

Each character of a line takes up a number of terminal cells: a tab up to the next multiple of
`tabStop`, other controls none, and the rest what their Unicode properties say.
-/

namespace ParenLex.Report

/-- The distance between tab stops. -/
def tabStop : Nat := 4

def isControl (c : Char) : Bool := c.toNat < 0x20 || 0x7F ≤ c.toNat && c.toNat < 0xA0

/-- The cells of a character that is no control. -/
def printedWidth (c : Char) : Nat :=
  if c.toNat < 0x7F then 1
  else if Unicode.zeroWidth.contains c then 0
  else if Unicode.tripleWide.contains c then 3
  else if Unicode.wide.contains c then 2
  else 1

/-- The cells of a character that begins in a column. -/
def widthAt (column : Nat) (c : Char) : Nat :=
  if c = '\t' then tabStop - column % tabStop else if isControl c then 0 else printedWidth c

/-- A character on a line: its first byte, the byte after it, and its cells. -/
structure Cell where
  char : Char
  first : Nat
  last : Nat
  width : Nat

/-- The cells of the characters from a byte and a column on, after those in `acc`. -/
def cellsOnto (acc : Array Cell) (byte column : Nat) : List Char → Array Cell
  | [] => acc
  | c :: cs =>
    cellsOnto (acc.push ⟨c, byte, byte + c.utf8Size, widthAt column c⟩) (byte + c.utf8Size)
      (column + widthAt column c) cs

def cells (cs : List Char) : List Cell := (cellsOnto #[] 0 0 cs).toList

/-- How a character is printed: a tab as blanks. -/
def Cell.text (c : Cell) : List Char :=
  if c.char = '\t' then List.replicate c.width ' ' else [c.char]

/-- The marks under a character, for marks on the bytes from `a` up to `b`: carets where they meet
it, blanks before. -/
def Cell.marks (a b : Nat) (c : Cell) : List Char :=
  if c.first < b && a < c.last then List.replicate c.width '^'
  else if c.first < b then List.replicate c.width ' '
  else []

end ParenLex.Report
