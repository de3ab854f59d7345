import ParenLex.Lexer.Basic

/-!
# The log of a scan

What a scan records of itself, in the order in which it happens.
-/

namespace ParenLex.Scan

inductive Event
  | started
  | warned (f : ReadFailure)
  | emitted (t : Token)
  | moved (source target : Mode)
  | finished (h : Halt) (depth : Nat)
  deriving DecidableEq

inductive Level
  | trace | debug | warn
  deriving DecidableEq

namespace Event

def level : Event → Level
  | warned _ => .warn
  | emitted _ | moved _ _ => .trace
  | started | finished _ _ => .debug

def message : Event → String
  | started => "scan started"
  | warned _ => "source read failed, treating as end of input"
  | emitted _ => "emit"
  | moved _ _ => "transition"
  | finished _ _ => "scan finished"

end Event

end ParenLex.Scan
