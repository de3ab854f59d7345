import ParenLex.Position

/-!
# Places and lines

A place is a byte offset with the line it is on. Reading on from a place moves the line at each
line feed.

* `Line.number_advance`: the line number grows by the line feeds read.
-/

namespace ParenLex

/-- A line: its number, from 1, and the offset of its first byte. -/
structure Line where
  number : Nat
  start : Nat
  deriving DecidableEq

/-- The line reached by reading characters from an offset on. -/
def Line.advance (l : Line) (offset : Nat) : List Char → Line
  | [] => l
  | c :: cs =>
    let next := offset + c.utf8Size
    (if c = '\n' then ⟨l.number + 1, next⟩ else l).advance next cs

theorem Line.number_advance (l : Line) (offset : Nat) (cs : List Char) :
    (l.advance offset cs).number = l.number + cs.count '\n' := by
  fun_induction Line.advance l offset cs with
  | case1 => simp
  | case2 l offset c cs next ih =>
    rw [ih, List.count_cons]
    split <;> simp_all; omega

structure Place where
  offset : Nat
  line : Line
  deriving DecidableEq

namespace Place

/-- The first byte of the first line. -/
def start : Place := ⟨0, ⟨1, 0⟩⟩

def position (p : Place) : Position := ⟨p.line.number, p.offset - p.line.start, p.offset⟩

end Place

end ParenLex
