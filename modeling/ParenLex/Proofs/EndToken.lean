import ParenLex.Proofs.Closing

/-!
# The end of the input after an error

The setting that asks for the end of the input after an error is looked at by a scan that has stopped,
and by nothing before. So two runs that differ in it alone go the same rounds up to there, and after
an error the one sends a token more. The error stands at the mark and the end where the reader is,
which is the same place, as a step that fails has taken back all that it read.

* `Round.next?_withEof`: a step goes on the same under either setting.
* `Round.exists_stopped`: a run that nobody refuses comes to a scan that has stopped.
* `eof_after_error`: what the setting adds, and what the tokens of a run are without a request to
  stop.
-/

namespace ParenLex

variable {σ : Type} {sink : Sink σ} {f : Feed} {st : σ} {settings : Settings}

/-- **The end of the input stands where the error does**, once a scan has failed. -/
theorem Scan.Open.eof_failed {ts : List Token} {s : Scan} (h : s.Open f ts)
    (hs : s.stage = .stopped .failed) : ∃ us t, ts = us ++ [t] ∧ (∀ u ∈ us, u.Inner) ∧
      t.kind = .error ∧ s.lexer.eofToken = .eof t.position := by
  obtain ⟨us, t, hts, hus, ht, hpos⟩ := h.failed hs
  refine ⟨us, t, hts, hus, ht, ?_⟩
  rw [hpos, Lexer.position, h.mark_eq_here]
  rfl

namespace Round

variable {r k : Round σ} {m : Mode} {x : Halt}

/-- The round with the setting changed. -/
def withEof (b : Bool) (r : Round σ) : Round σ :=
  { r with scan := { r.scan with eofAfterError := b } }

/-- **A round before a step goes on the same under either setting.** -/
theorem next?_withEof (b : Bool) (hs : r.scan.stage = .running m) :
    (r.withEof b).next? sink = (r.next? sink).map (withEof b) := by
  have ho : r.scan.over? = none := by simp [Scan.over?, hs]
  have how : (r.withEof b).scan.over? = none := ho
  have ha : (r.withEof b).asked sink = r.asked sink := rfl
  have ht : (r.withEof b).turn sink =
      { r.turn sink with next := { (r.turn sink).next with eofAfterError := b } } := by
    unfold turn
    rw [ha]
    cases r.asked sink <;> simp [withEof, Scan.turn, hs, Scan.stepTurn, Scan.metFailure]
  rw [next?, next?, ho, how, ht]
  cases hx : sink.take? r.sink (r.turn sink).offer with
  | none => simp [withEof, hx]
  | some st => simp [withEof, hx, asked, Scan.stopPassed]

/-- So either run comes to the rounds of the other, until its scan is over. -/
theorem reaches_withEof (b : Bool) (h : k.Reaches sink r) (ho : r.scan.over? = none) :
    (k.withEof b).Reaches sink (r.withEof b) := by
  induction h with
  | refl => exact .refl
  | tail hj hn ih =>
    obtain ⟨m, hs⟩ := running_of_next? hn ho
    have hj := ih (next?_eq_some.1 hn).1
    apply hj.tail
    rw [next?_withEof b hs, hn]
    rfl

/-- No round changes the setting. -/
theorem eofAfterError_of_reaches {s : Scan} (hr : (start st s).Reaches sink r) :
    r.scan.eofAfterError = s.eofAfterError := by
  induction hr with
  | refl => rfl
  | tail _ hn ih =>
    rw [(next_eq hn).2.1, ← ih]
    unfold turn Scan.turn
    split
    · split
      · rfl
      · rfl
    · rfl
    · rfl

/-- **A run that nobody refuses comes to a scan that has stopped.** -/
theorem exists_stopped (settings : Settings) (st : σ) (h : f.delivered.length ≤ counterMax)
    (hacc : ∀ st t, sink.accepts st t = true) : ∃ r x,
      (start st (Scan.ofFeed f settings)).Reaches sink r ∧ r.scan.stage = .stopped x ∧
        r.scan.Open f r.emitted := by
  obtain ⟨r, hr, -, ho, hlast⟩ := exists_lastTurn sink st settings h
  cases hlast with
  | finished x _ hs => exact ⟨r, x, hr, hs, ho⟩
  | refused t _ hno => exact absurd (hacc _ t) hno

/-- What the run comes to from there. -/
theorem run_of_stopped {s : Scan} (hacc : ∀ st t, sink.accepts st t = true)
    (hr : (start st s).Reaches sink r) (hs : r.scan.stage = .stopped x) :
    (s.run sink st).offered =
        r.emitted ++ (if r.scan.sendsEof x then [r.scan.lexer.eofToken] else []) ∧
      (s.run sink st).sink = (s.run sink st).offered.foldl sink.push st ∧
      (s.run sink st).result = r.scan.result := by
  obtain ⟨hoff, hsink, hres, -⟩ := rest_stopped hacc hs
  have hrun : r.rest sink = s.run sink st := rest_of_reaches hr
  rw [hrun] at hoff hsink hres
  refine ⟨hoff, ?_, hres⟩
  rw [hoff, hsink, List.foldl_append, ← sink_of_reaches hr]

/-- Only a request cancels a scan. -/
theorem asked_of_cancelled (h : f.delivered.length ≤ counterMax)
    (hr : (start st (Scan.ofFeed f settings)).Reaches sink r)
    (hs : r.scan.stage = .stopped .cancelled) : ∃ k m,
      (start st (Scan.ofFeed f settings)).Reaches sink k ∧ k.scan.stage = .running m ∧
        k.asked sink = true := by
  cases hr with
  | refl => cases hs
  | tail hj hn =>
    next k =>
    obtain ⟨m, hm⟩ := running_of_next? hn (by simp [Scan.over?, hs])
    refine ⟨k, m, hj, hm, ?_⟩
    by_contra ha
    have hopen := open_of_reaches h hj (next?_eq_some.1 hn).1
    obtain ⟨hawait, hroom⟩ := hopen.nests.running m hm
    -- a step that nobody asked to stop goes on, fails or is at the end
    have hcomes := Lexer.step_cases hawait hroom
    obtain ⟨-, hscan, -, -⟩ := next_eq hn
    rw [hscan, (turn_unasked hm (Bool.eq_false_iff.2 ha)).2] at hs
    generalize (k.scan.lexer.step m).1 = o at hcomes hs
    cases hcomes <;> cases hs

/-- Nobody asks for a stop where neither the feed nor the sink ever does. -/
theorem asked_of_stops (hf : f.stops = false) (hq : ∀ n st, sink.stops n st = false)
    (hr : (start st (Scan.ofFeed f settings)).Reaches sink r) : r.asked sink = false := by
  have hquiet : r.flag = false ∧ r.scan.lexer.view.ending.stops = false := by
    induction hr with
    | refl =>
      refine ⟨rfl, ?_⟩
      show (Scan.ofFeed f settings).lexer.view.ending.stops = false
      rw [Scan.ending_ofFeed, f.stops_ending, hf]
    | tail _ hn ih =>
      obtain ⟨hflag, hstops⟩ := ih
      obtain ⟨-, st, -, rfl⟩ := next?_eq_some.1 hn
      refine ⟨?_, (Scan.stops_turn _ _).trans hstops⟩
      simp [asked, hflag, Scan.stopPassed_of_stops hstops, hq]
  simp [asked, hquiet.1, Scan.stopPassed_of_stops hquiet.2, hq]

end Round

/-- **The end of the input after an error is one token more, and nothing else.** Whatever the feed, a
sink that accepts every token, and the requests to stop: the run with the setting has the same result
as the run without it. If the tokens of the latter end with an error, the end of the input comes after
it, at the same line, column and offset; otherwise both have the same tokens. And in a run that sees
no request before a step, tokens of the text are followed by the end of the input or by an error,
with the end of the input after that where it is asked for. -/
theorem eof_after_error (settings : Settings) (st : σ) (h : f.delivered.length ≤ counterMax)
    (hacc : ∀ st t, sink.accepts st t = true) :
    (let plain := (Scan.ofFeed f (settings.withEofAfterError false)).run sink st
      let ended := (Scan.ofFeed f (settings.withEofAfterError true)).run sink st
      ended.result = plain.result ∧
      plain.sink = plain.offered.foldl sink.push st ∧
      ended.sink = ended.offered.foldl sink.push st ∧
      (∀ t, plain.offered.getLast? = some t → t.kind = .error →
        ended.offered = plain.offered ++ [.eof t.position]) ∧
      ((∀ t, plain.offered.getLast? = some t → t.kind ≠ .error) →
        ended.offered = plain.offered)) ∧
    ((∀ r m, (Round.start st (Scan.ofFeed f settings)).Reaches sink r →
        r.scan.stage = .running m → r.asked sink = false) →
      ∃ ts last, ((Scan.ofFeed f settings).run sink st).offered = ts ++ last ∧
        (∀ t ∈ ts, t.Inner) ∧
        ((∃ p, last = [.eof p]) ∨ ∃ t : Token, t.kind = .error ∧
          last = if settings.eofAfterError then [t, .eof t.position] else [t])) := by
  constructor
  · intro plain ended
    obtain ⟨r, x, hr, hs, ho⟩ :=
      Round.exists_stopped (settings.withEofAfterError false) st h hacc
    have hover : r.scan.over? = none := by simp [Scan.over?, hs]
    -- the other run comes to the same round
    have hr' : (Round.start st (Scan.ofFeed f (settings.withEofAfterError true))).Reaches sink
        (r.withEof true) := Round.reaches_withEof true hr hover
    have hs' : (r.withEof true).scan.stage = .stopped x := hs
    obtain ⟨hplain, hsink, hres⟩ := Round.run_of_stopped hacc hr hs
    obtain ⟨hended, hsink', hres'⟩ := Round.run_of_stopped hacc hr' hs'
    have hset : r.scan.eofAfterError = false := Round.eofAfterError_of_reaches hr
    refine ⟨hres'.trans hres.symm, hsink, hsink', ?_⟩
    rw [show plain.offered = _ from hplain, show ended.offered = _ from hended]
    -- the setting matters after an error alone
    cases x with
    | exhausted =>
      refine ⟨?_, fun _ => rfl⟩
      intro t ht hk
      have ht : t = r.scan.lexer.eofToken := by simpa [Scan.sendsEof, eq_comm] using ht
      rw [ht] at hk
      cases hk
    | failed =>
      obtain ⟨us, t, hts, -, ht, hend⟩ := ho.eof_failed hs
      have hlast : r.emitted.getLast? = some t := by rw [hts, List.getLast?_concat]
      have hno : r.scan.sendsEof .failed = false := hset
      rw [hno, if_neg Bool.false_ne_true, List.append_nil]
      constructor
      · intro u hu _
        obtain rfl : t = u := Option.some.inj (hlast.symm.trans hu)
        rw [← hend]
        rfl
      · intro hnone
        exact absurd ht (hnone t hlast)
    | cancelled =>
      refine ⟨?_, fun _ => rfl⟩
      intro t ht hk
      have hinner := ho.inner (by simp [hs])
      have hmem : t ∈ r.emitted := List.mem_of_getLast? (by simpa [Scan.sendsEof] using ht)
      exact absurd hk (hinner t hmem).1
  · intro hquiet
    obtain ⟨r, x, hr, hs, ho⟩ := Round.exists_stopped settings st h hacc
    obtain ⟨hoff, -, -⟩ := Round.run_of_stopped hacc hr hs
    have heof := Round.eofAfterError_of_reaches hr
    cases x with
    | exhausted =>
      have hinner := ho.inner (by simp [hs])
      exact ⟨r.emitted, _, hoff, hinner, .inl ⟨_, rfl⟩⟩
    | failed =>
      obtain ⟨us, t, hts, hus, ht, hend⟩ := ho.eof_failed hs
      rw [hts, hend, List.append_assoc] at hoff
      refine ⟨us, _, hoff, hus, .inr ⟨t, ht, ?_⟩⟩
      rw [show r.scan.sendsEof .failed = settings.eofAfterError from heof]
      cases settings.eofAfterError with
      | false => rfl
      | true => rfl
    | cancelled =>
      obtain ⟨k, m, hk, hm, ha⟩ := Round.asked_of_cancelled h hr hs
      rw [hquiet k m hk hm] at ha
      cases ha

/-- An error on the second line, where nobody asks for a stop. -/
theorem eof_after_error_second_line :
    let f := Feed.ofItems [.bytes [0x28, 0x0A, 0x40]]
    let plain := (Scan.ofFeed f .default).run .keeping #[]
    let ended := (Scan.ofFeed f (Settings.default.withEofAfterError true)).run .keeping #[]
    let t : Token := .error "Unexpected @" ⟨2, 0, 2⟩
    (f.delivered.length ≤ counterMax ∧ (∀ st t, Sink.keeping.accepts st t = true) ∧
      plain.offered.getLast? = some t ∧ f.stops = false) ∧
    ended.offered = plain.offered ++ [.eof ⟨2, 0, 2⟩] ∧
    ∃ ts last, plain.offered = ts ++ last ∧ (∀ t ∈ ts, t.Inner) ∧
      ((∃ p, last = [.eof p]) ∨ ∃ t : Token, t.kind = .error ∧ last = [t]) := by
  intro f plain ended t
  have h : f.delivered.length ≤ counterMax := by decide
  have hacc : ∀ st t, Sink.keeping.accepts st t = true := fun _ _ => rfl
  have hlast : plain.offered.getLast? = some t := by decide +kernel
  have hstops : f.stops = false := by decide
  obtain ⟨⟨-, -, -, herr, -⟩, hshape⟩ := eof_after_error .default #[] h hacc
  have hquiet : ∀ (r : Round (Array Token)) (m : Mode),
      (Round.start #[] (Scan.ofFeed f .default)).Reaches .keeping r →
        r.scan.stage = .running m → r.asked .keeping = false := by
    intro r m hr _
    exact Round.asked_of_stops hstops Sink.accepting_keeping.stops hr
  exact ⟨⟨h, hacc, hlast, hstops⟩, herr t hlast rfl, hshape hquiet⟩

end ParenLex
