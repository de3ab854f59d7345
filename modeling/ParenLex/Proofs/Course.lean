import ParenLex.Proofs.Outcomes
import ParenLex.Scan.Run

/-!
# The course of a scan

The course of a scan are the turns it takes when nobody breaks it off. A run goes along the course
and leaves it where the sink refuses a token or a request to stop has been seen; so its log, and the
tokens it offers, are those of the course up to there.

* `log_runFrom`: a run's log is that of part of the course, and of what ended it.
* `offered_prefix`: the tokens offered are the first of the course, and all of them where the scan
  was not cancelled and no token was refused (`offered_of_halt`).
* `runFrom_accepting`: a sink that takes everything gets what the course offers.
-/

namespace ParenLex

namespace Scan.Event

/-- The token that an event shows. -/
def token? : Event → Option Token
  | emitted t => some t
  | _ => none

/-- The halt that an event reports. -/
def halt? : Event → Option Halt
  | finished h _ => some h
  | _ => none

end Scan.Event

namespace Turn

/-- The events of a turn whose offer has been accepted. -/
def events (t : Turn) : List Scan.Event := t.before ++ t.after

/-- The token offered is shown right before the offer, and no other token is shown. -/
structure Shows (t : Turn) : Prop where
  before : t.before.filterMap Scan.Event.token? = t.offer.toList
  last : ∀ tok, t.offer = some tok → t.before.getLast? = some (.emitted tok)
  after : t.after.filterMap Scan.Event.token? = []

end Turn

namespace Run

variable {σ : Type}

/-- The tokens offered to the sink, in their order. -/
def offered (r : Run σ) : List Token := r.log.toList.filterMap Scan.Event.token?

/-- The halt that a run ended with, unless a token was refused. -/
def halt? (r : Run σ) : Option Halt := r.log.toList.getLast?.bind Scan.Event.halt?

end Run

/-- A sink that takes every token and never asks for a stop. -/
structure Sink.Accepting {σ : Type} (sink : Sink σ) : Prop where
  accepts : ∀ st tok, sink.accepts st tok = true
  stops : ∀ n st, sink.stops n st = false

theorem Sink.accepting_keeping : Sink.keeping.Accepting := ⟨fun _ _ => rfl, fun _ _ => rfl⟩

namespace Scan

/-- **The turns of a scan that nobody breaks off.** -/
def course (s : Scan) : List Turn :=
  match _h : s.over? with
  | some _ => []
  | none => s.turn false :: (s.turn false).next.course
termination_by s.budget
decreasing_by exact budget_turn false (by assumption)

/-- The result of a scan that nobody breaks off. -/
def outcome (s : Scan) : Except ScanError Unit :=
  match _h : s.over? with
  | some r => r
  | none => (s.turn false).next.outcome
termination_by s.budget
decreasing_by exact budget_turn false (by assumption)

/-- The tokens that a scan offers when nobody breaks it off. -/
def offers (s : Scan) : List Token := s.course.filterMap (·.offer)

variable {s : Scan} {σ : Type} {sink : Sink σ} {st : σ} {log : Array Event} {n : Nat} {flag : Bool}

theorem course_over {r : Except ScanError Unit} (h : s.over? = some r) : s.course = [] := by
  rw [course]; split <;> simp_all

theorem course_eq (h : s.over? = none) :
    s.course = s.turn false :: (s.turn false).next.course := by
  rw [course]; split <;> simp_all

/-- What is offered from here on is what the turn offers, and what is offered after it. -/
theorem offers_eq (h : s.over? = none) :
    s.offers = (s.turn false).offer.toList ++ (s.turn false).next.offers := by
  rw [offers, course_eq h, List.filterMap_cons, offers]
  cases (s.turn false).offer <;> rfl

theorem outcome_over {r : Except ScanError Unit} (h : s.over? = some r) : s.outcome = r := by
  rw [outcome]; split <;> simp_all

theorem outcome_eq (h : s.over? = none) : s.outcome = (s.turn false).next.outcome := by
  rw [outcome]; split <;> simp_all

/-! ### Turns -/

theorem shows_turn (s : Scan) (stop : Bool) : (s.turn stop).Shows := by
  unfold turn
  split
  · next m hm =>
    split
    · exact ⟨rfl, by simp, rfl⟩
    · have hw : ((metFailure s.lexer (s.lexer.step m).2).map Event.warned).toList.filterMap
          Event.token? = [] := by
        cases metFailure s.lexer (s.lexer.step m).2 <;> rfl
      refine ⟨?_, ?_, by simp only [stepTurn]; split <;> rfl⟩
      · simp only [stepTurn, List.filterMap_append, hw]
        cases (s.lexer.step m).1.token <;> rfl
      · intro tok ht
        simp only [stepTurn] at ht ⊢
        simp [ht]
  · next h hh =>
    refine ⟨?_, ?_, rfl⟩
    · simp only [stopTurn]
      split <;> rfl
    · intro tok ht
      simp only [stopTurn] at ht ⊢
      simp [ht]
  · exact ⟨rfl, by simp, rfl⟩

theorem shows_course (s : Scan) : ∀ t ∈ s.course, t.Shows := by
  fun_induction course s with
  | case1 s r h => simp
  | case2 s h ih => exact List.forall_mem_cons.2 ⟨s.shows_turn false, ih⟩

/-- What turns log shows the tokens they offer. -/
theorem token?_events {ts : List Turn} (h : ∀ t ∈ ts, t.Shows) :
    (ts.flatMap Turn.events).filterMap Event.token? = ts.filterMap (·.offer) := by
  induction ts with
  | nil => rfl
  | cons t ts ih =>
    obtain ⟨ht, hts⟩ := List.forall_mem_cons.1 h
    simp only [List.flatMap_cons, List.filterMap_append, Turn.events, ht.before, ht.after, ih hts]
    cases ho : t.offer <;> simp [ho]

/-- A request to stop only matters to a scan that would step on. -/
theorem turn_eq (s : Scan) (stop : Bool) :
    s.turn stop = s.turn false ∨
      s.turn stop = ⟨[], none, [], { s with stage := .stopped .cancelled }⟩ := by
  unfold turn
  rcases s.stage with m | h | r
  · cases stop <;> simp
  · exact .inl rfl
  · exact .inl rfl

/-! ### Runs -/

/-- How a run leaves the turns still to come, and what it logs then: there are none, the first has
its offer refused, or a stop is asked for. -/
inductive Leaves : List Turn → List Event → Prop
  | done : Leaves [] []
  | refused (t : Turn) (ts : List Turn) : t.offer.isSome = true → Leaves (t :: ts) t.before
  | stopped (t : Turn) (ts : List Turn) (d : Nat) : Leaves (t :: ts) [.finished .cancelled d]

theorem log_runFrom_cancelled (h : s.stage = .stopped .cancelled) :
    (runFrom sink n flag log st s).log.toList =
      log.toList ++ [.finished .cancelled s.lexer.depth] := by
  have ho : s.over? = none := by simp [over?, h]
  rw [runFrom]
  split
  · next r hr => simp [ho] at hr
  · simp only [turn, h, stopTurn, sendsEof, Bool.false_eq_true, if_false]
    rw [runFrom_over rfl]
    simp

/-- **The log of a run is that of the first turns of the course**, and of how it left the others. -/
theorem log_runFrom (sink : Sink σ) (n : Nat) (flag : Bool) (log : Array Event) (st : σ)
    (s : Scan) : ∃ taken rest last, s.course = taken ++ rest ∧ Leaves rest last ∧
      (runFrom sink n flag log st s).log.toList =
        log.toList ++ (taken.flatMap Turn.events ++ last) := by
  fun_induction runFrom sink n flag log st s with
  | case1 n flag log st s r h => exact ⟨[], [], [], course_over h, .done, by simp⟩
  | case2 n flag log st s h flag' t ho ih =>
    rcases s.turn_eq flag' with ht | ht
    · -- the turn is the first of the course
      obtain ⟨taken, rest, last, h1, h2, h3⟩ := ih
      refine ⟨t :: taken, rest, last, ?_, h2, ?_⟩
      · rw [course_eq h, ← ht, h1]; rfl
      · rw [h3]; simp [Turn.events]
    · -- a stop was asked for: the turn logs nothing, and the one after it is the last
      refine ⟨[], s.course, [.finished .cancelled s.lexer.depth], rfl, ?_, ?_⟩
      · rw [course_eq h]; exact .stopped _ _ _
      · have hc : t.next.stage = .stopped .cancelled := by simp only [t, ht]
        rw [log_runFrom_cancelled hc]
        simp [t, ht]
  | case3 n flag log st s h flag' t tok ho ha ih =>
    rcases s.turn_eq flag' with ht | ht
    · obtain ⟨taken, rest, last, h1, h2, h3⟩ := ih
      refine ⟨t :: taken, rest, last, ?_, h2, ?_⟩
      · rw [course_eq h, ← ht, h1]; rfl
      · rw [h3]; simp [Turn.events]
    · simp [t, ht] at ho
  | case4 n flag log st s h flag' t tok ho ha =>
    rcases s.turn_eq flag' with ht | ht
    · refine ⟨[], s.course, t.before, rfl, ?_, by simp⟩
      rw [course_eq h, ← ht]
      exact .refused _ _ (by simp [t, ho])
    · simp [t, ht] at ho

/-- **The tokens offered are the first that the course offers.** -/
theorem offered_prefix (sink : Sink σ) (st : σ) (s : Scan) :
    (s.run sink st).offered <+: s.offers := by
  obtain ⟨taken, rest, last, h1, h2, h3⟩ := log_runFrom sink 0 false #[.started] st s
  have hs := s.shows_course
  rw [h1, List.forall_mem_append] at hs
  rw [Run.offered, run, h3, offers, h1]
  simp only [List.filterMap_append, token?_events hs.1]
  show taken.filterMap (·.offer) ++ _ <+: taken.filterMap (·.offer) ++ _
  refine (List.prefix_append_right_inj _).2 ?_
  cases h2 with
  | done => exact List.nil_prefix
  | refused t ts ho =>
    obtain ⟨tok, ho⟩ := Option.isSome_iff_exists.1 ho
    rw [(hs.2 t List.mem_cons_self).before]
    simp [ho]
  | stopped t ts d => exact List.nil_prefix

/-- **A run that was not told to stop and had no token refused offers all of them**, and its halt is
the last thing logged. -/
theorem offered_of_halt {h : Halt} (hh : (s.run sink st).halt? = some h) (hc : h ≠ .cancelled) :
    (s.run sink st).offered = s.offers ∧
      (s.course.flatMap Turn.events).getLast?.bind Event.halt? = some h := by
  obtain ⟨taken, rest, last, h1, h2, h3⟩ := log_runFrom sink 0 false #[.started] st s
  have hs := s.shows_course
  rw [h1, List.forall_mem_append] at hs
  rw [Run.halt?, run, h3, List.getLast?_append, List.getLast?_append] at hh
  cases h2 with
  | done =>
    rw [List.append_nil] at h1
    refine ⟨?_, ?_⟩
    · rw [Run.offered, run, h3, offers, h1, List.append_nil, List.filterMap_append,
        token?_events hs.1]
      rfl
    · rw [h1]
      cases he : (taken.flatMap Turn.events).getLast? with
      | none => simp [he, Event.halt?] at hh
      | some e => simpa [he] using hh
  | refused t ts ho =>
    -- the last thing logged is the token that was refused
    obtain ⟨tok, ho⟩ := Option.isSome_iff_exists.1 ho
    simp [(hs.2 t List.mem_cons_self).last tok ho, Event.halt?] at hh
  | stopped t ts d =>
    simp only [List.getLast?_singleton, Option.some_or, Option.bind_some, Event.halt?,
      Option.some.injEq] at hh
    exact absurd hh.symm hc

/-! ### Runs that nobody breaks off -/

/-- No turn changes whether a request to stop is in the feed. -/
theorem stops_turn (s : Scan) (stop : Bool) :
    (s.turn stop).next.lexer.view.ending.stops = s.lexer.view.ending.stops := by
  unfold turn
  split
  · next m hm =>
    split
    · rfl
    · simp only [stepTurn, Lexer.ending_step]
  · exact (Reader.stops_ending _).trans (Reader.stops_ending s.lexer.reader).symm
  · rfl

theorem stopPassed_of_stops (h : s.lexer.view.ending.stops = false) : s.stopPassed = false := by
  have hs : s.lexer.reader.feed.stops = false := (Reader.stops_ending _).symm.trans h
  unfold Feed.stops at hs
  exact (Bool.or_eq_false_iff.1 hs).1

/-- **A sink that takes every token and never asks for a stop gets all of them**, and the log is that
of the whole course. -/
theorem runFrom_accepting (s : Scan) (st : σ) (n : Nat) (log : Array Event) (ha : sink.Accepting)
    (hs : s.lexer.view.ending.stops = false) :
    (runFrom sink n false log st s).sink = s.offers.foldl sink.push st ∧
      (runFrom sink n false log st s).result = s.outcome ∧
      (runFrom sink n false log st s).log.toList =
        log.toList ++ s.course.flatMap Turn.events := by
  generalize hf : false = flag
  fun_induction runFrom sink n flag log st s with
  | case1 n flag log st s r h =>
    rw [offers, course_over h, outcome_over h]
    exact ⟨rfl, rfl, by simp⟩
  | case2 n flag log st s h flag' t ho ih =>
    have hf' : flag' = false := by simp [flag', ← hf, stopPassed_of_stops hs, ha.stops]
    have ht : t = s.turn false := by simp only [t, hf']
    obtain ⟨h1, h2, h3⟩ := ih (by rw [ht, stops_turn, hs]) hf'.symm
    rw [h1, h2, h3, outcome_eq h, offers, offers, course_eq h, ← ht, List.filterMap_cons_none ho]
    exact ⟨rfl, rfl, by simp [Turn.events]⟩
  | case3 n flag log st s h flag' t tok ho hacc ih =>
    have hf' : flag' = false := by simp [flag', ← hf, stopPassed_of_stops hs, ha.stops]
    have ht : t = s.turn false := by simp only [t, hf']
    obtain ⟨h1, h2, h3⟩ := ih (by rw [ht, stops_turn, hs]) hf'.symm
    rw [h1, h2, h3, outcome_eq h, offers, offers, course_eq h, ← ht, List.filterMap_cons_some ho]
    exact ⟨rfl, rfl, by simp [Turn.events]⟩
  | case4 n flag log st s h flag' t tok ho hacc => exact absurd (ha.accepts st tok) hacc

/-- What the log of a whole course shows. -/
theorem shown_of_log {run : Run σ}
    (h : run.log.toList = [.started] ++ s.course.flatMap Turn.events) : run.offered = s.offers ∧
      run.halt? = (s.course.flatMap Turn.events).getLast?.bind Event.halt? := by
  rw [Run.offered, Run.halt?, h, List.filterMap_append, token?_events s.shows_course,
    List.getLast?_append]
  refine ⟨rfl, ?_⟩
  cases (s.course.flatMap Turn.events).getLast? <;> rfl

/-- So it is offered all tokens of the course, and the halt of the course is the last thing
logged. -/
theorem offered_accepting (s : Scan) (st : σ) (ha : sink.Accepting)
    (hs : s.lexer.view.ending.stops = false) : (s.run sink st).offered = s.offers ∧
      (s.run sink st).halt? = (s.course.flatMap Turn.events).getLast?.bind Event.halt? :=
  shown_of_log (runFrom_accepting s st 0 #[.started] ha hs).2.2

end Scan

end ParenLex
