import ParenLex.Lexer.Progress

/-!
# Paths of a lexer

A path follows the steps of a lexer, each from the mode that the one before led to, up to the step
that does not go on.
-/

namespace ParenLex

/-- A step taken: the mode it was taken from, its outcome, and the lexer after it. -/
structure Stride where
  mode : Mode
  step : Step
  after : Lexer

namespace Lexer

def stride (l : Lexer) (m : Mode) : Stride := ⟨m, (l.step m).1, (l.step m).2⟩

/-- The steps from a mode on. -/
def path (l : Lexer) (m : Mode) : List Stride :=
  match _h : (l.step m).1.next with
  | .proceed k => l.stride m :: (l.step m).2.path k
  | _ => [l.stride m]
termination_by l.budget m
decreasing_by exact budget_step (by assumption)

end Lexer

end ParenLex
