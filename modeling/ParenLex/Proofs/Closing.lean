import ParenLex.Proofs.Cancellation
import ParenLex.Proofs.Lines
import ParenLex.Proofs.Nesting

/-!
# How runs close

A run over a feed within the counters comes to a last turn: its scan has stopped and now finishes, or
its sink refuses a token. Up to there its lexer is one that steps have led through the feed, and an
error is the last of the tokens emitted, with nothing but pieces of the text before it.

* `Round.open_of_reaches`: what holds in every round whose scan is not over.
* `Round.exists_lastTurn`: the last turn of a run.
* `Round.kept_of_lastTurn`: what the sink has accepted by then.
-/

namespace ParenLex

/-- A token that is neither an error nor the end of the input. -/
def Token.Inner (t : Token) : Prop := t.kind ≠ .error ∧ t.kind ≠ .eof

namespace Scan

/-- **A scan before a turn**, on its way through a feed and not over, after `ts` have been
emitted. -/
structure Open (f : Feed) (ts : List Token) (s : Scan) : Prop where
  nests : s.Nests f ts
  reached : Lexer.Reached f 0 ts s.lexer
  drawn : s.lexer.reader.DrawnFrom f
  ending : s.lexer.view.ending = f.ending
  inner : s.stage ≠ .stopped .failed → ∀ t ∈ ts, t.Inner
  failed : s.stage = .stopped .failed → ∃ us t, ts = us ++ [t] ∧ (∀ u ∈ us, u.Inner) ∧
    t.kind = .error ∧ t.position = s.lexer.position

variable {f : Feed} {ts : List Token} {s : Scan} {m : Mode}

theorem open_ofFeed (settings : Settings) (h : f.delivered.length ≤ counterMax) :
    (Scan.ofFeed f settings).Open f [] := by
  refine ⟨nests_ofFeed settings h, .start, Reader.drawn_ofFeed f, ending_ofFeed f settings, ?_, ?_⟩
  · simp
  · intro hs
    cases hs

/-- A scan whose mode fits makes no fault. -/
theorem Open.no_fault (h : s.Open f ts) (hs : s.stage = .running m) :
    ∀ e, (s.lexer.step m).1.next ≠ .fault e := by
  obtain ⟨hm, hr⟩ := h.nests.running m hs
  intro e he
  rcases Lexer.fits_or_halts (Lexer.awaits_iff.1 hm) hr with ⟨n, hn, -⟩ | ⟨x, hx⟩
  · rw [he] at hn
    cases hn
  · rw [he] at hx
    cases hx

/-- A stop that is asked for leaves the lexer as it is. -/
theorem Open.asked (h : s.Open f ts) (hs : s.stage = .running m) :
    { s with stage := .stopped .cancelled }.Open f ts := by
  have hnest := nests_turn h.nests (by simp [over?, hs]) true
  have ht : s.turn true = ⟨[], none, [], { s with stage := .stopped .cancelled }⟩ := by
    simp [turn, hs]
  rw [ht] at hnest
  refine ⟨by simpa using hnest, h.reached, h.drawn, h.ending, ?_, ?_⟩
  · intro _
    exact h.inner (by simp [hs])
  · intro hx
    cases hx

/-- **A step keeps a scan open**, and an error stops it. -/
theorem Open.step (h : s.Open f ts) (hs : s.stage = .running m) :
    { s with lexer := (s.lexer.step m).2, stage := stageAfter (s.lexer.step m).1.next }.Open f
      (ts ++ (s.lexer.step m).1.token.toList) := by
  obtain ⟨hm, hr⟩ := h.nests.running m hs
  have hm := Lexer.awaits_iff.1 hm
  have hnest := nests_step h.nests hs
  obtain ⟨hoff, hnext⟩ := turn_running hs
  rw [hoff, hnext] at hnest
  have hinner : ∀ t ∈ ts, t.Inner := h.inner (by simp [hs])
  have hkind := Lexer.kind_step hm hr
  have hdrawn := Reader.drawn_of_moves h.drawn (s.lexer.moves_step m)
  have hend : (s.lexer.step m).2.view.ending = f.ending := by
    rw [Lexer.ending_step, h.ending]
  have hgoes := Lexer.goes_step hm hr
  refine ⟨hnest, .step m h.reached (h.no_fault hs), hdrawn, hend, ?_, ?_⟩
  · intro hne t ht
    generalize s.lexer.step m = x at hgoes hkind hne ht
    rcases List.mem_append.1 ht with ht | ht
    · exact hinner t ht
    · refine ⟨?_, hkind t (Option.mem_toList.1 ht)⟩
      cases hgoes with
      | choose => cases ht
      | take p _ _ hp =>
        obtain rfl := List.mem_singleton.1 ht
        exact (Piece.plain_first? hp).error
      | fail => exact absurd rfl hne
      | exhausted => cases ht
  · intro hfail
    generalize s.lexer.step m = x at hgoes hfail
    cases hgoes with
    | choose => cases hfail
    | take => cases hfail
    | fail e k _ _ _ hv =>
      -- the error stands at the mark, which stays
      have hmark : k.mark = s.lexer.mark := congrArg View.mark hv
      refine ⟨ts, _, rfl, hinner, rfl, ?_⟩
      show s.lexer.mark.position = k.mark.position
      rw [hmark]
    | exhausted => cases hfail

/-- The mark of an open scan is where its reader is. -/
theorem Open.mark_eq_here (h : s.Open f ts) : s.lexer.mark = s.lexer.here :=
  (Lexer.follows_of_reached h.reached).mark

end Scan

namespace Round

variable {σ : Type} {sink : Sink σ} {r k : Round σ} {f : Feed} {st : σ} {settings : Settings}
  {run : Run σ}

/-- The round before one whose scan is not over has stepped, or was asked to stop. -/
theorem running_of_next? (hn : r.next? sink = some k) (hk : k.scan.over? = none) :
    ∃ m, r.scan.stage = .running m := by
  obtain ⟨ho, -⟩ := next?_eq_some.1 hn
  obtain ⟨-, hscan, -, -⟩ := next_eq hn
  rcases hs : r.scan.stage with m | h | x
  · exact ⟨m, rfl⟩
  · have hover : k.scan.over? = some r.scan.result := by
      rw [hscan]
      simp [turn, Scan.turn, hs, Scan.stopTurn, Scan.over?]
    rw [hover] at hk
    cases hk
  · simp [Scan.over?, hs] at ho

theorem open_next (h : r.scan.Open f r.emitted) (hn : r.next? sink = some k)
    (hk : k.scan.over? = none) : k.scan.Open f k.emitted := by
  obtain ⟨m, hs⟩ := running_of_next? hn hk
  obtain ⟨-, hscan, -, -⟩ := next_eq hn
  rw [emitted_next? hn, hscan]
  cases ha : r.asked sink with
  | true =>
    rw [turn_asked hs ha]
    simpa using h.asked hs
  | false =>
    obtain ⟨hoff, hnext⟩ := turn_unasked hs ha
    rw [hoff, hnext]
    exact h.step hs

/-- **The scan is open in every round** in which it is not over. -/
theorem open_of_reaches (h : f.delivered.length ≤ counterMax)
    (hr : (start st (Scan.ofFeed f settings)).Reaches sink r) (ho : r.scan.over? = none) :
    r.scan.Open f r.emitted := by
  induction hr with
  | refl => exact Scan.open_ofFeed settings h
  | tail _ hn ih => exact open_next (ih (next?_eq_some.1 hn).1) hn ho

/-- **The last turn of a run**: a scan that has stopped finishes, or the sink refuses a token. -/
inductive LastTurn (sink : Sink σ) (r : Round σ) (run : Run σ) : Prop
  | finished (h : Halt) (st : σ) : r.scan.stage = .stopped h →
      sink.take? r.sink (r.turn sink).offer = some st →
      run.log = r.log ++ (r.turn sink).before ++ (r.turn sink).after → run.sink = st →
      run.result = r.scan.result → LastTurn sink r run
  | refused (t : Token) : (r.turn sink).offer = some t → ¬ sink.accepts r.sink t = true →
      run.log = r.log ++ (r.turn sink).before → run.sink = r.sink →
      run.result = .error .sinkClosed → LastTurn sink r run

theorem lastTurn_of_refused (ho : r.scan.over? = none) (hn : r.next? sink = none) :
    r.LastTurn sink (r.rest sink) := by
  have hrest := rest_refused ho hn
  rw [next?, ho] at hn
  obtain ⟨t, ht, ha⟩ := Sink.refused_of_take? (Option.map_eq_none_iff.1 hn)
  rw [hrest]
  exact .refused t ht ha rfl rfl rfl

theorem lastTurn_of_over (h : r.scan.Open f r.emitted) (hn : r.next? sink = some k)
    {x : Except ScanError Unit} (hk : k.scan.over? = some x) : r.LastTurn sink (r.rest sink) := by
  obtain ⟨ho, st, htake, hnext⟩ := next?_eq_some.1 hn
  have hscan : k.scan = (r.turn sink).next := by rw [hnext]
  have hrest : r.rest sink = ⟨k.sink, x, _, k.log⟩ := (rest_next? hn).trans (Scan.runFrom_over hk)
  rcases hs : r.scan.stage with m | y | y
  · -- a step does not end the scan, as it makes no fault
    have hfault := h.no_fault hs
    cases ha : r.asked sink with
    | true =>
      rw [hscan, turn_asked hs ha] at hk
      cases hk
    | false =>
      obtain ⟨-, hstep⟩ := turn_unasked hs ha
      rw [hscan, hstep] at hk
      cases hx : (r.scan.lexer.step m).1.next with
      | proceed n => simp [Scan.over?, Scan.stageAfter, hx] at hk
      | halt y => simp [Scan.over?, Scan.stageAfter, hx] at hk
      | fault e => exact absurd hx (hfault e)
  · have hres : x = r.scan.result := by
      rw [hscan, turn_stopped hs] at hk
      exact (Option.some.inj hk).symm
    rw [hrest, hnext]
    exact .finished y st hs htake rfl rfl hres
  · simp [Scan.over?, hs] at ho

/-- **Every run has a last turn.** The recursion is that of the run. -/
theorem exists_lastTurn_rest (sink : Sink σ) (r : Round σ) (h : r.scan.Open f r.emitted)
    (ho : r.scan.over? = none) :
    ∃ k, r.Reaches sink k ∧ k.scan.over? = none ∧ k.LastTurn sink (r.rest sink) := by
  cases hn : r.next? sink with
  | none => exact ⟨r, .refl, ho, lastTurn_of_refused ho hn⟩
  | some j =>
    cases hj : j.scan.over? with
    | some x => exact ⟨r, .refl, ho, lastTurn_of_over h hn hj⟩
    | none =>
      have hlt : j.scan.budget < r.scan.budget := by
        rw [(next_eq hn).2.1]
        exact Scan.budget_turn _ ho
      obtain ⟨k, hk, hover, hlast⟩ := exists_lastTurn_rest sink j (open_next h hn hj) hj
      rw [← rest_next? hn] at hlast
      exact ⟨k, .head hn hk, hover, hlast⟩
termination_by r.scan.budget

theorem exists_lastTurn (sink : Sink σ) (st : σ) (settings : Settings)
    (h : f.delivered.length ≤ counterMax) : ∃ r,
      (start st (Scan.ofFeed f settings)).Reaches sink r ∧ r.scan.over? = none ∧
        r.scan.Open f r.emitted ∧ r.LastTurn sink ((Scan.ofFeed f settings).run sink st) := by
  obtain ⟨r, hr, ho, hlast⟩ := exists_lastTurn_rest sink (start st (Scan.ofFeed f settings))
    (Scan.open_ofFeed settings h) rfl
  exact ⟨r, hr, ho, open_of_reaches h hr ho, hlast⟩

/-- What a run has offered when its last turn is taken. -/
theorem offered_of_lastTurn (h : r.LastTurn sink run) :
    run.offered = r.emitted ++ (r.turn sink).offer.toList := by
  have hshows : (r.turn sink).Shows := Scan.shows_turn _ _
  unfold Run.offered emitted
  cases h with
  | finished x st hs _ hlog =>
    rw [hlog]
    simp [hshows.before, hshows.after]
  | refused t _ _ hlog =>
    rw [hlog]
    simp [hshows.before]

/-- The tokens emitted so far have all been accepted. -/
theorem accepted_emitted {s : Scan} (hr : (start st s).Reaches sink r) (ts : List Token) :
    sink.accepted st (r.emitted ++ ts) = r.emitted ++ sink.accepted r.sink ts := by
  induction hr generalizing ts with
  | refl => rfl
  | tail _ hn ih =>
    obtain ⟨-, st', htake, hk⟩ := next?_eq_some.1 hn
    rw [emitted_next? hn, List.append_assoc, ih, (Sink.accepted_of_take? htake).2,
      List.append_assoc, hk]

/-- **What the sink has accepted at the end**: all that was offered, or all but the last. -/
theorem kept_of_lastTurn {s : Scan} {run : Run σ} (hr : (start st s).Reaches sink r)
    (h : r.LastTurn sink run) : ∃ refused,
      run.offered = sink.accepted st run.offered ++ refused ∧
      run.sink = (sink.accepted st run.offered).foldl sink.push st ∧
      (run.result ≠ .error .sinkClosed → refused = []) ∧
      (run.result = .error .sinkClosed →
        ∃ t, refused = [t] ∧ ¬ sink.accepts run.sink t = true) := by
  have hoff := offered_of_lastTurn h
  have hsink := sink_of_reaches hr
  cases h with
  | finished h st' hs htake _ hst hres =>
    obtain ⟨hst', hall⟩ := Sink.accepted_of_take? htake
    have hall := hall []
    have hkept : sink.accepted st run.offered = run.offered := by
      rw [hoff, accepted_emitted hr]
      rw [List.append_nil] at hall
      rw [hall]
      exact congrArg (r.emitted ++ ·) (List.append_nil _)
    refine ⟨[], ?_, ?_, fun _ => rfl, ?_⟩
    · rw [hkept, List.append_nil]
    · rw [hkept, hst, hst', hoff, List.foldl_append, ← hsink]
    · intro hx
      exact absurd (hres.symm.trans hx) (Scan.result_ne _)
  | refused t ht hacc _ hst hres =>
    rw [ht] at hoff
    have hkept : sink.accepted st run.offered = r.emitted := by
      rw [hoff, accepted_emitted hr, Option.toList, Sink.accepted_of_neg hacc, List.append_nil]
    refine ⟨[t], ?_, ?_, ?_, ?_⟩
    · rw [hkept]
      exact hoff
    · rw [hkept, hst, hsink]
    · intro hx
      exact absurd hres hx
    · intro _
      rw [hst]
      exact ⟨t, rfl, hacc⟩

end Round

end ParenLex
