import ParenLex.Proofs.Log

/-!
# The log is a record of the run

What a run logs is what it has done: it began, it emitted tokens, it went from mode to mode, it met a
failed read, and it finished. Up to the last turn the log is in order; there the scan finishes, or the
last token shown is the one that the sink refuses.

* `Round.logged_finished`, `Round.logged_refused`: the log when the run comes to its last turn.
* `Round.offset_of_finished`: where a failed read is met.
* `log_faithful`: what the log of a run holds.
-/

namespace ParenLex

namespace Round

open Scan (Event)

variable {σ : Type} {sink : Sink σ} {first r : Round σ} {f : Feed}

/-- **What a run has logged before it finishes**, if it does: a log in order, with the failed read
that the run has met. -/
structure Logged (sink : Sink σ) (first : Round σ) (f : Feed) (log : List Event)
    (w : Option ReadFailure) : Prop where
  recorded : ∃ m, Recorded sink first log w m
  met : ∃ k ps, first.Reaches sink k ∧ k.next? sink = none ∧
    f.Requests ps (k.turn sink).next.lexer.reader.feed ∧
      ∀ e, .failed e ∈ ps ↔ w.map (·.error) = some e
  offset : ∀ x, w = some x → x.offset = byteSize f.chars

/-- What a scan that has stopped shows of the end of the input is in order as well. -/
theorem InOrder.stopped {h : Halt} (hi : InOrder sink first f r) (hs : r.scan.stage = .stopped h) :
    ∃ m, Recorded sink first (r.log.toList ++ (r.turn sink).before) r.scan.lexer.reader.failure
      m := by
  obtain ⟨⟨m, hrec, -⟩, -⟩ := hi
  have hbefore : (r.turn sink).before = Round.stepEvents none (r.turn sink).offer := by
    rw [turn_stopped hs]
    rfl
  rw [hbefore]
  exact ⟨m, hrec.stepEvents (List.append_nil _) _⟩

theorem logged_finished {h : Halt} {st : σ} (hi : InOrder sink first f r)
    (hr : first.Reaches sink r) (ho : r.scan.Open f r.emitted) (hs : r.scan.stage = .stopped h)
    (htake : sink.take? r.sink (r.turn sink).offer = some st) :
    Logged sink first f (r.log.toList ++ (r.turn sink).before) r.scan.lexer.reader.failure := by
  have hover : r.scan.over? = none := by simp [Scan.over?, hs]
  -- the round after it is the last, and there the scan is over
  obtain ⟨k, hk⟩ : ∃ k, r.next? sink = some k := ⟨_, next?_eq_some.2 ⟨hover, st, htake, rfl⟩⟩
  obtain ⟨-, hscan, -, -⟩ := next_eq hk
  have hstage : k.scan.stage = .over r.scan.result := by
    rw [hscan, turn_stopped hs]
    rfl
  have hfeed : (k.turn sink).next.lexer.reader.feed = r.scan.lexer.reader.feed := by
    have hturn : (k.turn sink).next = k.scan := by simp [turn, Scan.turn, hstage]
    rw [hturn, hscan, turn_stopped hs]
    rfl
  obtain ⟨ps, hp, hfail⟩ := Reader.requests_of_drawn ho.drawn ho.ending
  refine ⟨hi.stopped hs, ⟨k, ps, hr.tail hk, ?_, ?_, hfail⟩, hi.failsAtEnd⟩
  · simp [next?, Scan.over?, hstage]
  · rw [hfeed]
    exact hp

theorem logged_refused (hi : InOrder sink first f r) (hr : first.Reaches sink r)
    (ho : r.scan.Open f r.emitted) (hover : r.scan.over? = none) {t : Token}
    (hoff : (r.turn sink).offer = some t) (hacc : ¬ sink.accepts r.sink t = true) :
    ∃ w, Logged sink first f (r.log.toList ++ (r.turn sink).before) w := by
  have hn : r.next? sink = none := by simp [next?, hover, hoff, Sink.take?, hacc]
  rcases hs : r.scan.stage with m | h | x
  · have ha : r.asked sink = false := by
      cases ha : r.asked sink with
      | false => rfl
      | true =>
        rw [turn_asked hs ha] at hoff
        cases hoff
    obtain ⟨hrec, hend⟩ := hi.before ho hs ha
    have hstep := ho.step hs
    obtain ⟨ps, hp, hfail⟩ := Reader.requests_of_drawn hstep.drawn hstep.ending
    refine ⟨_, ⟨m, hrec⟩, ⟨r, ps, hr, hn, ?_, hfail⟩, hend⟩
    rw [(turn_unasked hs ha).2]
    exact hp
  · obtain ⟨ps, hp, hfail⟩ := Reader.requests_of_drawn ho.drawn ho.ending
    refine ⟨_, hi.stopped hs, ⟨r, ps, hr, hn, ?_, hfail⟩, hi.failsAtEnd⟩
    rw [turn_stopped hs]
    exact hp
  · simp [Scan.over?, hs] at hover

/-- **A failed read was met where the last token stands**, if the scan stopped by itself. -/
theorem offset_of_finished {h : Halt} {x : ReadFailure} (ho : r.scan.Open f r.emitted)
    (hs : r.scan.stage = .stopped h) (hc : h ≠ .cancelled)
    (hx : r.scan.lexer.reader.failure = some x) :
    ∃ t, (r.emitted ++ (r.turn sink).offer.toList).getLast? = some t ∧
      t.position.offset = byteSize f.chars := by
  obtain ⟨past, hp⟩ := Lexer.along_of_reached ho.reached
  have hhere : r.scan.lexer.here.offset = byteSize f.chars :=
    Reader.offset_of_failure hp ho.drawn hx
  rw [offer_stopped hs]
  by_cases hsend : r.scan.sendsEof h = true
  · rw [if_pos hsend]
    exact ⟨r.scan.lexer.eofToken, by simp, hhere⟩
  · -- then the scan has failed, and its error stands at the mark
    rw [if_neg hsend, List.append_nil]
    have hfail : h = .failed := by
      cases h with
      | exhausted => exact absurd rfl hsend
      | failed => rfl
      | cancelled => exact absurd rfl hc
    rw [hfail] at hs
    obtain ⟨us, t, hts, -, -, hpos⟩ := ho.failed hs
    refine ⟨t, by rw [hts]; simp, ?_⟩
    rw [hpos, ← hhere, ← ho.mark_eq_here]
    rfl

end Round

/-- The tokens that a log shows. -/
theorem Scan.Event.shown_eq (log : List Scan.Event) :
    log.filterMap Scan.Event.shown? = (log.filterMap Scan.Event.token?).map Token.display := by
  rw [List.map_filterMap]
  rfl

/-- **The log is a faithful record of the run**, whatever the feed, the settings, the sink and the
requests to stop.

It begins with the start of the scan, which comes up nowhere else. It shows the tokens that the sink
accepts, and after them the one that it refuses, if it does. The moves lead on from the top level,
each from where the one before led to, and each is logged after the token of its own step. At most
one warning is there, just when a read has failed; it tells of the end of the characters, and the
last token stands there too if the scan stopped by itself. The finish is logged last, unless a token
is refused, with the number of parens opened and not closed. -/
theorem log_faithful {σ : Type} {f : Feed} (h : f.delivered.length ≤ counterMax)
    (settings : Settings) (sink : Sink σ) (st : σ) :
    let first := Round.start st (Scan.ofFeed f settings)
    let run := (Scan.ofFeed f settings).run sink st
    let log := run.log.toList
    let kept := sink.accepted st run.offered
    (∃ events, log = .started :: events ∧ .started ∉ events) ∧
    (∃ refused, run.offered = kept ++ refused ∧ run.sink = kept.foldl sink.push st ∧
      log.filterMap Scan.Event.shown? = (kept ++ refused).map Token.display ∧
      (run.result ≠ .error .sinkClosed → refused = []) ∧
      (run.result = .error .sinkClosed →
        ∃ t, refused = [t] ∧ ¬ sink.accepts run.sink t = true)) ∧
    ((∃ m, Mode.Leads .text (log.filterMap Scan.Event.move?) m) ∧
      ∀ before m n after, log = before ++ .moved m n :: after →
        Round.MovesAfter sink first before m n) ∧
    (∃ w : Option ReadFailure, log.filterMap Scan.Event.warning? = w.toList ∧
      (∃ k ps, first.Reaches sink k ∧ k.next? sink = none ∧
        f.Requests ps (k.turn sink).next.lexer.reader.feed ∧
          ∀ e, .failed e ∈ ps ↔ w.map (·.error) = some e) ∧
      ∀ x, w = some x → x.offset = byteSize f.chars ∧
        ∀ k, run.halt? = some k → k ≠ .cancelled →
          ∃ t, run.offered.getLast? = some t ∧ t.position.offset = x.offset) ∧
    (run.result = .error .sinkClosed → ∀ e ∈ log, e.halt? = none) ∧
    (run.result ≠ .error .sinkClosed → ∃ before k d, log = before ++ [.finished k d] ∧
      (∀ e ∈ before, e.halt? = none) ∧
        d + Token.closes run.offered = Token.opens run.offered) := by
  intro first run log kept
  obtain ⟨r, hr, hover, ho, hlast⟩ := Round.exists_lastTurn sink st settings h
  have hi : Round.InOrder sink first f r := Round.inOrder_of_reaches h hr hover
  obtain ⟨refused, h1, h2, h3, h4⟩ := Round.kept_of_lastTurn hr hlast
  have hshown : log.filterMap Scan.Event.shown? = (kept ++ refused).map Token.display := by
    rw [← h1]
    exact Scan.Event.shown_eq log
  have hoff := Round.offered_of_lastTurn hlast
  -- what is logged before the finish is in order, with a finish or without
  cases hlast with
  | refused t ht hacc hlog hsink hres =>
    obtain ⟨w, ⟨m, hrec⟩, hmet, hw⟩ := Round.logged_refused hi hr ho hover ht hacc
    have hlog : log = r.log.toList ++ (r.turn sink).before := by
      simp [log, run, hlog]
    rw [← hlog] at hrec
    refine ⟨hrec.started, ⟨refused, h1, h2, hshown, h3, h4⟩, ⟨⟨m, hrec.leads⟩, hrec.moves⟩,
      ⟨w, hrec.warnings, hmet, ?_⟩, fun _ => hrec.unfinished, fun hn => absurd hres hn⟩
    intro x hx
    refine ⟨hw x hx, ?_⟩
    intro k hk
    -- a run with no finish has no halt
    obtain ⟨e, he, hk⟩ := Option.bind_eq_some_iff.1 hk
    have := hrec.unfinished e (List.mem_of_getLast? he)
    rw [hk] at this
    cases this
  | finished k st' hs htake hlog hsink hres =>
    obtain ⟨⟨m, hrec⟩, hmet, hw⟩ := Round.logged_finished hi hr ho hs htake
    have hafter : (r.turn sink).after = [.finished k r.scan.lexer.depth] := by
      rw [Round.turn_stopped hs]
      rfl
    have hlog : log = r.log.toList ++ (r.turn sink).before ++
        [.finished k r.scan.lexer.depth] := by
      simp [log, run, hlog, hafter]
    have hseq := hrec.finish k r.scan.lexer.depth
    rw [← hlog] at hseq
    refine ⟨hseq.started, ⟨refused, h1, h2, hshown, h3, h4⟩, ⟨⟨m, hseq.leads⟩, hseq.moves⟩,
      ⟨_, hseq.warnings, hmet, ?_⟩, ?_, ?_⟩
    · intro x hx
      refine ⟨hw x hx, ?_⟩
      intro k' hk hc
      have hk' : run.halt? = some k := by
        show log.getLast?.bind _ = _
        rw [hlog, List.getLast?_concat]
        rfl
      obtain rfl : k = k' := Option.some.inj (hk'.symm.trans hk)
      rw [hw x hx, hoff]
      exact Round.offset_of_finished ho hs hc hx
    · intro hx
      exact absurd (hres.symm.trans hx) (Scan.result_ne _)
    · intro _
      have hend : run.offered =
          r.emitted ++ if r.scan.sendsEof k then [r.scan.lexer.eofToken] else [] := by
        rw [hoff, Round.offer_stopped hs]
      -- the end of the input is no paren
      have hbal := ho.nests.balance.depth
      refine ⟨_, k, r.scan.lexer.depth, hlog, hrec.unfinished, ?_⟩
      rw [hend, Token.closes_append, Token.opens_append, ← hbal]
      split <;> simp [Token.opens, Token.closes, Lexer.eofToken, Token.eof]

/-- A failed read behind a word that the sink refuses: the scan warns of the one, shows the other and
does not finish. -/
theorem log_faithful_refused :
    let e : ReadError := ⟨.connectionReset, "reset"⟩
    let f := Feed.ofItems [.bytes [0x28, 0x61], .failure e]
    let run := (Scan.ofFeed f .default).run (.closing 1 fun _ _ => false) #[]
    let t : Token := ⟨.identifier, "a", ⟨1, 1, 1⟩⟩
    (f.delivered.length ≤ counterMax ∧ run.result = .error .sinkClosed) ∧
    (∀ x ∈ run.log.toList, x.halt? = none) ∧
    (∃ kept, run.log.toList.filterMap Scan.Event.shown? = (kept ++ [t]).map Token.display ∧
      run.sink = kept.foldl Array.push #[]) ∧
    ∃ x : ReadFailure, run.log.toList.filterMap Scan.Event.warning? = [x] ∧ x.error = e ∧
      x.offset = byteSize f.chars := by
  intro e f run t
  have h : f.delivered.length ≤ counterMax := by decide
  have hres : run.result = .error .sinkClosed := by decide +kernel
  have hlast : run.offered.getLast? = some t := by decide +kernel
  have hwarn : run.log.toList.filterMap Scan.Event.warning? = [⟨2, e⟩] := by decide +kernel
  obtain ⟨-, ⟨us, h1, h2, h3, -, h4⟩, -, ⟨w, hw, -, hx⟩, h5, -⟩ :=
    log_faithful h .default (.closing 1 fun _ _ => false) #[]
  obtain ⟨u, rfl, -⟩ := h4 hres
  -- the token refused is the last one shown
  have hu : u = t := by
    have hlast : run.offered.getLast? = some t := hlast
    rw [h1, List.getLast?_concat] at hlast
    exact Option.some.inj hlast
  rw [hu] at h3
  refine ⟨⟨h, hres⟩, h5 hres, ⟨_, h3, h2⟩, ⟨2, e⟩, hwarn, rfl, ?_⟩
  refine (hx ⟨2, e⟩ ?_).1
  have hmem : (⟨2, e⟩ : ReadFailure) ∈ w.toList := by
    have hw : run.log.toList.filterMap Scan.Event.warning? = w.toList := hw
    rw [← hw, hwarn]
    exact List.mem_singleton.2 rfl
  exact Option.mem_toList.1 hmem

end ParenLex
