/-!
# Positions in a text

Counters run from 0 to `counterMax`; an operation whose answer lies outside is a `CounterFault`.

* `Position.lineStart_eq_ok_iff`: the start of the line is found exactly when the column does not
  exceed the offset.
-/

namespace ParenLex

/-- The greatest value of a counter of 64 bits. -/
def counterMax : Nat := 18446744073709551615

/-- A counter driven above its greatest value or below zero. -/
inductive CounterFault
  | overflow | underflow
  deriving DecidableEq

def CounterFault.message : CounterFault → String
  | overflow => "attempt to add with overflow"
  | underflow => "attempt to subtract with overflow"

/-- Where a token starts: lines count from 1, byte columns and byte offsets from 0. -/
structure Position where
  line : Nat
  column : Nat
  offset : Nat
  deriving DecidableEq

namespace Position

/-- The first byte of the first line. -/
def start : Position := ⟨1, 0, 0⟩

/-- The offset of the first byte of the line. -/
def lineStart (p : Position) : Except CounterFault Nat :=
  if p.column ≤ p.offset then .ok (p.offset - p.column) else .error .underflow

def display (p : Position) : String := p.line.repr ++ ":" ++ p.column.repr

theorem lineStart_eq_ok_iff {p : Position} {n : Nat} :
    p.lineStart = .ok n ↔ p.offset = n + p.column := by
  unfold lineStart
  split
  · rw [Except.ok.injEq]; omega
  · simp; omega

end Position

end ParenLex
