import ParenLex.Lexer.Progress
import ParenLex.Scan.Event
import ParenLex.Settings

/-!
# Scans

A scan takes turns. In a turn it steps its lexer, or, once the lexer has stopped, sends the token at
the end where one is due; either way it offers at most one token. Whoever drives the scan gives it
word of a request to stop before a turn, and takes the next turn once the offer is accepted. A scan
that is over keeps its result and takes no more turns.

* `budget_turn`: every turn of a scan that is not over lowers its budget, so every scan ends.
-/

namespace ParenLex

/-- Why a scan gave no good result. Errors in the text are tokens and not among these. -/
inductive ScanError
  | sinkClosed
  | read (e : ReadError)
  | fault (f : CounterFault)
  deriving DecidableEq

def ScanError.message : ScanError → String
  | sinkClosed => "token sink closed before the scan finished"
  | read e => "IO error: " ++ e.message
  | fault f => f.message

/-- How far a scan is: about to step from a mode, stopped, or over. -/
inductive Stage
  | running (m : Mode)
  | stopped (h : Halt)
  | over (r : Except ScanError Unit)

structure Scan where
  lexer : Lexer
  stage : Stage
  eofAfterError : Bool

/-- One turn: what is logged before its offer, the offer, what is logged once the offer has been
accepted, and the scan then. -/
structure Turn where
  before : List Scan.Event
  offer : Option Token
  after : List Scan.Event
  next : Scan

namespace Scan

/-- A scan about to begin. -/
def ofFeed (f : Feed) (s : Settings) : Scan := ⟨.ofFeed f, .running .text, s.eofAfterError⟩

/-- Whether the feed has passed on a request to stop. -/
def stopPassed (s : Scan) : Bool := s.lexer.reader.feed.stopped

/-- Whether the end of the input is sent as a token after this halt. -/
def sendsEof (s : Scan) : Halt → Bool
  | .exhausted => true
  | .failed => s.eofAfterError
  | .cancelled => false

/-- The failure that a step met, if `old` is the lexer before it and `new` the one after. -/
def metFailure (old new : Lexer) : Option ReadFailure :=
  if old.reader.failure.isNone then new.reader.failure else none

/-- The result of a scan that nobody broke off: the failure of its feed, if there was one. -/
def result (s : Scan) : Except ScanError Unit :=
  match s.lexer.takeFailure.1 with
  | some e => .error (.read e)
  | none => .ok ()

def stageAfter : Transition → Stage
  | .proceed m => .running m
  | .halt h => .stopped h
  | .fault f => .over (.error (.fault f))

def stepTurn (s : Scan) (m : Mode) : Turn :=
  match s.lexer.step m with
  | (step, l) =>
    { before := ((metFailure s.lexer l).map Event.warned).toList ++ (step.token.map .emitted).toList
      offer := step.token
      after := match step.next with | .proceed k => [.moved m k] | _ => []
      next := { s with lexer := l, stage := stageAfter step.next } }

def stopTurn (s : Scan) (h : Halt) : Turn :=
  let token := if s.sendsEof h then some s.lexer.eofToken else none
  { before := (token.map .emitted).toList
    offer := token
    after := [.finished h s.lexer.depth]
    next := { s with lexer := s.lexer.takeFailure.2, stage := .over s.result } }

/-- One turn, after word whether to stop. -/
def turn (s : Scan) (stop : Bool) : Turn :=
  match s.stage with
  | .running m =>
    if stop then ⟨[], none, [], { s with stage := .stopped .cancelled }⟩ else s.stepTurn m
  | .stopped h => s.stopTurn h
  | .over _ => ⟨[], none, [], s⟩

/-- The result of a scan that is over. -/
def over? (s : Scan) : Option (Except ScanError Unit) :=
  match s.stage with
  | .over r => some r
  | _ => none

/-- A bound on the turns left. -/
def budget (s : Scan) : Nat :=
  match s.stage with
  | .running m => s.lexer.budget m + 2
  | .stopped _ => 1
  | .over _ => 0

theorem budget_turn {s : Scan} (stop : Bool) (h : s.over? = none) :
    (s.turn stop).next.budget < s.budget := by
  unfold turn
  split
  · next m hm =>
    split
    · simp [budget, hm]
    · simp only [stepTurn, budget, hm]
      cases hn : (s.lexer.step m).1.next with
      | proceed k => have := Lexer.budget_step hn; simp [stageAfter]; omega
      | halt k => simp [stageAfter]
      | fault k => simp [stageAfter]
  · next k hk => simp [stopTurn, budget, hk]
  · next r hr => simp [over?, hr] at h

end Scan

end ParenLex
