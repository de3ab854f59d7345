import ParenLex.Scan.Basic

/-!
# Runs

A run drives a scan to its end: each offer goes to a sink, and the flag that asks the scan to stop
is looked at before each turn. The first offer refused breaks the scan off.

* `runFrom_over`: a scan that is over is left as it is.
-/

namespace ParenLex

/-- A taker of tokens with a state of its own: whether it accepts a token, its state when it has,
and whether a stop is asked for after a number of turns. -/
structure Sink (σ : Type) where
  accepts : σ → Token → Bool
  push : σ → Token → σ
  stops : Nat → σ → Bool

/-- What a run leaves: the state of the sink, the result, the flag at the end, and the log. -/
structure Run (σ : Type) where
  sink : σ
  result : Except ScanError Unit
  stopped : Bool
  log : Array Scan.Event

namespace Sink

/-- Keeps every token. -/
def keeping : Sink (Array Token) := ⟨fun _ _ => true, .push, fun _ _ => false⟩

/-- Keeps tokens up to a limit, and asks for a stop once a number of them are there, never for 0, or
from the start. -/
def limited (limit stopAt : Option Nat) (stopped : Bool) : Sink (Array Token) where
  accepts kept _ := limit.all (kept.size < ·)
  push := .push
  stops _ kept := stopped || stopAt.any fun n => 0 < n && n ≤ kept.size

end Sink

namespace Scan

variable {σ : Type}

/-- Runs a scan on from a point: `n` turns taken, the flag as seen, the log so far and the state of
the sink. -/
def runFrom (sink : Sink σ) (n : Nat) (flag : Bool) (log : Array Event) (st : σ) (s : Scan) :
    Run σ :=
  match _h : s.over? with
  | some r => ⟨st, r, flag || s.stopPassed || sink.stops n st, log⟩
  | none =>
    let flag := flag || s.stopPassed || sink.stops n st
    let t := s.turn flag
    match t.offer with
    | none => runFrom sink (n + 1) flag (log ++ t.before ++ t.after) st t.next
    | some tok =>
      if sink.accepts st tok then
        runFrom sink (n + 1) flag (log ++ t.before ++ t.after) (sink.push st tok) t.next
      else ⟨st, .error .sinkClosed, flag || t.next.stopPassed, log ++ t.before⟩
termination_by s.budget
decreasing_by all_goals exact budget_turn _ (by assumption)

/-- Runs a scan from its beginning. -/
def run (sink : Sink σ) (st : σ) (s : Scan) : Run σ := runFrom sink 0 false #[.started] st s

theorem runFrom_over {sink : Sink σ} {n : Nat} {flag : Bool} {log : Array Event} {st : σ}
    {s : Scan} {r : Except ScanError Unit} (h : s.over? = some r) :
    runFrom sink n flag log st s = ⟨st, r, flag || s.stopPassed || sink.stops n st, log⟩ := by
  rw [runFrom]
  split <;> simp_all

end Scan

/-- The scan of a text, with every token kept. -/
def scanText (text : String) : Run (Array Token) :=
  Scan.run Sink.keeping #[] (.ofFeed (.ofText text) .default)

/-- The tokens of a text. -/
def tokenize (text : String) : List Token := (scanText text).sink.toList

/-- The tokens of a text if its scan gives a good result, and otherwise why it gives none. -/
def tokenize? (text : String) : Except ScanError (List Token) :=
  (scanText text).result.map fun _ => tokenize text

end ParenLex
