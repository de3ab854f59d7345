import Mathlib.Logic.Relation
import ParenLex.Proofs.Course

/-!
# The rounds of a run

A run goes round: it asks whether to stop, takes a turn, hands the offer to its sink and goes on
from the scan that the turn leaves. It ends with a scan that is over or with an offer refused.

* `rest_of_reaches`: what a run comes to is what it comes to from any round that it reaches.
* `mem_log_run`: all that a run logs, it logs in the turn of a round that it reaches.
-/

namespace ParenLex

variable {σ : Type}

/-- What becomes of a sink at an offer, unless it refuses. -/
def Sink.take? (sink : Sink σ) (st : σ) : Option Token → Option σ
  | none => some st
  | some t => if sink.accepts st t then some (sink.push st t) else none

/-- **Where a run stands before a turn**: the turns taken, the flag as seen, the log, the state of
the sink and the scan. -/
structure Round (σ : Type) where
  turns : Nat
  flag : Bool
  log : Array Scan.Event
  sink : σ
  scan : Scan

namespace Round

/-- The first round. -/
def start (st : σ) (s : Scan) : Round σ := ⟨0, false, #[.started], st, s⟩

/-- Whether the turn is told to stop. -/
def asked (sink : Sink σ) (r : Round σ) : Bool :=
  r.flag || r.scan.stopPassed || sink.stops r.turns r.sink

/-- The turn of the round. -/
def turn (sink : Sink σ) (r : Round σ) : Turn := r.scan.turn (r.asked sink)

/-- The round after it, unless the run ends. -/
def next? (sink : Sink σ) (r : Round σ) : Option (Round σ) :=
  match r.scan.over? with
  | some _ => none
  | none => (sink.take? r.sink (r.turn sink).offer).map fun st =>
    ⟨r.turns + 1, r.asked sink, r.log ++ (r.turn sink).before ++ (r.turn sink).after, st,
      (r.turn sink).next⟩

/-- **One round after another.** -/
def Reaches (sink : Sink σ) : Round σ → Round σ → Prop :=
  Relation.ReflTransGen fun r k => r.next? sink = some k

/-- What the run comes to from here. -/
def rest (sink : Sink σ) (r : Round σ) : Run σ :=
  Scan.runFrom sink r.turns r.flag r.log r.sink r.scan

/-- The tokens emitted so far, all of which the sink has accepted. -/
def emitted (r : Round σ) : List Token := r.log.toList.filterMap Scan.Event.token?

variable {sink : Sink σ} {r k : Round σ} {e : Scan.Event}

theorem next?_eq_some : r.next? sink = some k ↔ r.scan.over? = none ∧
    ∃ st, sink.take? r.sink (r.turn sink).offer = some st ∧
      k = ⟨r.turns + 1, r.asked sink, r.log ++ (r.turn sink).before ++ (r.turn sink).after, st,
        (r.turn sink).next⟩ := by
  unfold next?
  cases r.scan.over? with
  | some x => simp
  | none => simp [eq_comm]

/-- **Going a round leaves what the run comes to.** -/
theorem rest_next? (h : r.next? sink = some k) : r.rest sink = k.rest sink := by
  obtain ⟨ho, st, ht, rfl⟩ := next?_eq_some.1 h
  unfold rest
  rw [Scan.runFrom]
  split
  · next x hx => rw [ho] at hx; cases hx
  · -- the run goes by the offer of the round
    change (match (r.turn sink).offer with | none => _ | some tok => _) = _
    cases hn : (r.turn sink).offer with
    | none =>
      rw [hn] at ht
      obtain rfl := Option.some.inj ht
      rfl
    | some tok =>
      rw [hn, Sink.take?] at ht
      split at ht
      · next ha =>
        obtain rfl := Option.some.inj ht
        exact if_pos ha
      · cases ht

/-- The run ends where an offer is refused. -/
theorem rest_refused (ho : r.scan.over? = none) (hn : r.next? sink = none) : r.rest sink =
    ⟨r.sink, .error .sinkClosed, r.asked sink || (r.turn sink).next.stopPassed,
      r.log ++ (r.turn sink).before⟩ := by
  simp only [next?, ho, Option.map_eq_none_iff] at hn
  unfold rest
  rw [Scan.runFrom]
  split
  · next x hx => rw [ho] at hx; cases hx
  · change (match (r.turn sink).offer with | none => _ | some tok => _) = _
    cases hoff : (r.turn sink).offer with
    | none =>
      rw [hoff] at hn
      cases hn
    | some tok =>
      rw [hoff, Sink.take?] at hn
      split at hn
      · cases hn
      · next ha => exact if_neg ha

theorem rest_of_reaches (h : r.Reaches sink k) : k.rest sink = r.rest sink := by
  induction h with
  | refl => rfl
  | tail _ hn ih => rw [← rest_next? hn, ih]

/-- What is logged from a round on. The recursion is that of the run. -/
theorem mem_log_rest (sink : Sink σ) (r : Round σ) (h : e ∈ (r.rest sink).log.toList) :
    e ∈ r.log.toList ∨ ∃ k, r.Reaches sink k ∧ e ∈ (k.turn sink).events := by
  cases hn : r.next? sink with
  | none =>
    cases ho : r.scan.over? with
    | some x =>
      rw [rest, Scan.runFrom_over ho] at h
      exact .inl h
    | none =>
      rw [rest_refused ho hn, Array.toList_appendList, List.mem_append] at h
      exact h.imp_right fun h => ⟨r, .refl, List.mem_append_left _ h⟩
  | some k =>
    rw [rest_next? hn] at h
    obtain ⟨ho, st, -, hk⟩ := next?_eq_some.1 hn
    rcases mem_log_rest sink k h with h | ⟨m, hm, h⟩
    · rw [hk] at h
      simp only [Array.toList_appendList, List.append_assoc, List.mem_append] at h
      exact h.imp_right fun h => ⟨r, .refl, List.mem_append.2 h⟩
    · exact .inr ⟨m, .head hn hm, h⟩
termination_by r.scan.budget
decreasing_by
  rw [hk]
  exact Scan.budget_turn _ ho

/-- **All that a run logs, it logs in the turn of a round that it reaches.** -/
theorem mem_log_run {s : Scan} {st : σ} (h : e ∈ (s.run sink st).log.toList) :
    e = .started ∨ ∃ r, (start st s).Reaches sink r ∧ e ∈ (r.turn sink).events :=
  (mem_log_rest sink (start st s) h).imp_left fun h => by simpa [start] using h

/-- The token offered in a round is emitted in it. -/
theorem emitted_next? (h : r.next? sink = some k) :
    k.emitted = r.emitted ++ (r.turn sink).offer.toList := by
  obtain ⟨-, st, -, rfl⟩ := next?_eq_some.1 h
  have hs : (r.turn sink).Shows := Scan.shows_turn _ _
  simp [emitted, hs.before, hs.after]

/-- Every token offered was the offer of a round. -/
theorem exists_round_of_offered {s : Scan} {st : σ} {t : Token}
    (h : t ∈ (s.run sink st).offered) :
    ∃ r, (start st s).Reaches sink r ∧ (r.turn sink).offer = some t := by
  obtain ⟨e, he, ht⟩ := List.mem_filterMap.1 h
  rcases mem_log_run he with rfl | ⟨r, hr, hm⟩
  · cases ht
  · have hs : (r.turn sink).Shows := Scan.shows_turn _ _
    have hm : t ∈ (r.turn sink).events.filterMap Scan.Event.token? :=
      List.mem_filterMap.2 ⟨e, hm, ht⟩
    rw [Turn.events, List.filterMap_append, hs.before, hs.after, List.append_nil] at hm
    exact ⟨r, hr, by simpa using hm⟩

end Round

end ParenLex
