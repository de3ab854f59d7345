import ParenLex.Proofs.Failure
import ParenLex.Proofs.Refusal
import ParenLex.Proofs.Steps

/-!
# Cancelled runs

A stop may be asked for at any time: from the start, by the feed while it is read, by the sink as it
takes a token, or by others. A run looks for the request before each step. If it sees one there, it
keeps what the steps so far have come to; if it never does, it goes as if nobody had asked.

* `along_of_reaches`: where a run stands among the steps of its lexer.
* `cancellation`: what a run comes to, whether it sees a request or not.
-/

namespace ParenLex

namespace Feed

variable {f : Feed}

/-- The feed with its requests to stop left out. -/
def calm (f : Feed) : Feed := ⟨f.ready, f.items.filter (· ≠ .stop), false⟩

theorem script_calm (items : List Item) :
    scriptBytes (items.filter (· ≠ .stop)) = scriptBytes items ∧
      scriptFailure (items.filter (· ≠ .stop)) = scriptFailure items := by
  induction items with
  | nil => exact ⟨rfl, rfl⟩
  | cons i items ih =>
    obtain ⟨h1, h2⟩ := ih
    cases i with
    | bytes bs => cases bs <;> simp_all [scriptBytes, scriptFailure]
    | failure e => by_cases he : e.kind = .interrupted <;> simp_all [scriptBytes, scriptFailure]
    | stop =>
      rw [List.filter_cons_of_neg (by simp)]
      exact ⟨h1, h2⟩

@[simp] theorem delivered_calm (f : Feed) : f.calm.delivered = f.delivered :=
  congrArg (f.ready ++ ·) (script_calm f.items).1

@[simp] theorem failure?_calm (f : Feed) : f.calm.failure? = f.failure? := (script_calm f.items).2

@[simp] theorem stops_calm (f : Feed) : f.calm.stops = false := by
  simp [calm, stops]

theorem chars_calm (f : Feed) : f.calm.chars = f.chars := (chars_congr f.delivered_calm).1

theorem bytes_calm (f : Feed) : f.calm.ending.bytes = f.ending.bytes :=
  (chars_congr f.delivered_calm).2

theorem runsOut_calm (f : Feed) : f.calm.RunsOut ↔ f.RunsOut := by
  rw [RunsOut, RunsOut, delivered_calm, chars_calm, bytes_calm]

end Feed

namespace Scan

variable {f : Feed}

/-- **Requests to stop do not change what a scan sends**, nor its outcome, as long as nobody breaks
it off. -/
theorem sends_calm (settings : Settings) (h : f.delivered.length ≤ counterMax) :
    (∃ ts x, (Scan.ofFeed f settings).Sends ts x ∧ (Scan.ofFeed f.calm settings).Sends ts x) ∧
      (Scan.ofFeed f.calm settings).outcome = (Scan.ofFeed f settings).outcome := by
  have hcalm : f.calm.delivered.length ≤ counterMax := by rwa [Feed.delivered_calm]
  refine ⟨⟨_, _, sends_ofFeed settings h, ?_⟩, ?_⟩
  · have hs := sends_ofFeed settings hcalm
    rw [Munch.tokens_of_delivered f.delivered_calm] at hs
    have hh : (munch 0 f.calm.chars).halt f.calm.ending = (munch 0 f.chars).halt f.ending := by
      simp only [Munch.halt, Munch.obstacle?, f.chars_calm, f.bytes_calm]
    rwa [hh] at hs
  · cases he : f.failure? with
    | none => rw [outcome_ofFeed settings h he, outcome_ofFeed settings hcalm (by simpa using he)]
    | some e =>
      -- both meet the failed read, or neither does
      have h1 := outcome_cases settings h he
      have h2 := outcome_cases settings hcalm ((Feed.failure?_calm f).trans he)
      rw [f.chars_calm, f.runsOut_calm] at h2
      rcases h1 with ⟨hr, -, h1⟩ | ⟨hr, -, h1⟩
      · rcases h2 with ⟨-, -, h2⟩ | ⟨hn, -⟩
        · rw [h1, h2]
        · exact absurd hr hn
      · rcases h2 with ⟨hy, -⟩ | ⟨-, -, h2⟩
        · exact absurd hy hr
        · rw [h1, h2]

/-- **The steps are those of the feed without the requests.** -/
theorem steps_calm (f : Feed) :
    (Lexer.ofFeed f.calm).steps .text = (Lexer.ofFeed f).steps .text := by
  refine Lexer.steps_congr ?_ ?_ .text
  · rw [Lexer.view_ofFeed, Lexer.view_ofFeed, f.chars_calm]
  · rw [Lexer.view_ofFeed, Lexer.view_ofFeed]
    exact f.bytes_calm

/-- **The result tells of the failed reads met so far**, and of nothing else. -/
theorem result_of_drawn {s : Scan} (hd : s.lexer.reader.DrawnFrom f)
    (he : s.lexer.view.ending = f.ending) : ∃ ps, f.Requests ps s.lexer.reader.feed ∧
      (∀ e, s.result = .error (.read e) ↔ .failed e ∈ ps) ∧
        ((∀ e, .failed e ∉ ps) → s.result = .ok ()) := by
  obtain ⟨ps, hp, hf⟩ := Reader.requests_of_drawn hd he
  refine ⟨ps, hp, fun e => ?_, fun hn => ?_⟩
  · rw [hf, result, Lexer.takeFailure, Reader.takeFailure]
    cases s.lexer.reader.failure <;> simp
  · rw [result, Lexer.takeFailure, Reader.takeFailure]
    cases hx : s.lexer.reader.failure with
    | none => rfl
    | some x => exact absurd ((hf x.error).2 (by rw [hx]; rfl)) (hn x.error)

end Scan

/-- The sink with its requests to stop taken away. -/
def Sink.patient {σ : Type} (sink : Sink σ) : Sink σ := { sink with stops := fun _ _ => false }

/-- **A run cut short after some steps**, when its feed `f` has become `g`: it has sent the tokens
of these steps and nothing more, not even the end of the input, and its result is the failed read
that was met on the way, or else good. -/
structure Run.CutAfter {σ : Type} (run : Run σ) (sink : Sink σ) (st : σ) (steps : List Step)
    (f g : Feed) : Prop where
  offered : run.offered = steps.filterMap (·.token)
  kept : run.sink = run.offered.foldl sink.push st
  halt : run.halt? = some .cancelled
  reached : ∃ ps, f.Requests ps g
  failed : ∀ ps, f.Requests ps g → ∀ e, run.result = .error (.read e) ↔ .failed e ∈ ps
  good : ∀ ps, f.Requests ps g → (∀ e, .failed e ∉ ps) → run.result = .ok ()

namespace Round

variable {σ : Type} {sink : Sink σ} {r k : Round σ} {m n : Mode} {st : σ}

/-- A sink that accepts everything goes on while there are turns. -/
theorem exists_next?_of_accepts (hacc : ∀ st t, sink.accepts st t = true)
    (ho : r.scan.over? = none) : ∃ k, r.next? sink = some k := by
  have hw : sink.willing = sink := by
    obtain ⟨accepts, push, stops⟩ := sink
    simp only [Sink.willing, Sink.mk.injEq, and_true]
    funext st t
    exact (hacc st t).symm
  simpa [hw] using exists_next? sink ho

/-- What a round leaves for the next. -/
theorem next_eq (h : r.next? sink = some k) : k.turns = r.turns + 1 ∧
    k.scan = (r.turn sink).next ∧ k.log = r.log ++ (r.turn sink).before ++ (r.turn sink).after ∧
      k.sink = (r.turn sink).offer.toList.foldl sink.push r.sink := by
  obtain ⟨-, st, ht, rfl⟩ := next?_eq_some.1 h
  exact ⟨rfl, rfl, rfl, (Sink.accepted_of_take? ht).1⟩

/-- The sink has taken the tokens emitted so far. -/
theorem sink_of_reaches {s : Scan} (h : (start st s).Reaches sink r) :
    r.sink = r.emitted.foldl sink.push st := by
  induction h with
  | refl => rfl
  | tail _ hn ih => rw [emitted_next? hn, (next_eq hn).2.2.2, ih, List.foldl_append]

/-- The turn of a scan that has stopped. -/
theorem turn_stopped {h : Halt} (hs : r.scan.stage = .stopped h) :
    r.turn sink = r.scan.stopTurn h := by
  simp [turn, Scan.turn, hs]

/-- A request seen before a step stops the scan there, and does nothing else. -/
theorem turn_asked (hs : r.scan.stage = .running m) (ha : r.asked sink = true) :
    r.turn sink = ⟨[], none, [], { r.scan with stage := .stopped .cancelled }⟩ := by
  simp [turn, Scan.turn, hs, ha]

/-- The offer of a scan that has stopped is the end of the input, where that is due. -/
theorem offer_stopped {h : Halt} (hs : r.scan.stage = .stopped h) : (r.turn sink).offer.toList =
    if r.scan.sendsEof h then [r.scan.lexer.eofToken] else [] := by
  rw [turn_stopped hs, Scan.stopTurn]
  dsimp only
  split
  · rfl
  · rfl

/-! ### Ends of runs -/

/-- **A run of a scan that has stopped** sends the end of the input if it is due, and no more. -/
theorem rest_stopped {h : Halt} (hacc : ∀ st t, sink.accepts st t = true)
    (hs : r.scan.stage = .stopped h) :
    (r.rest sink).offered =
        r.emitted ++ (if r.scan.sendsEof h then [r.scan.lexer.eofToken] else []) ∧
      (r.rest sink).sink =
        (if r.scan.sendsEof h then [r.scan.lexer.eofToken] else []).foldl sink.push r.sink ∧
      (r.rest sink).result = r.scan.result ∧ (r.rest sink).halt? = some h := by
  have ho : r.scan.over? = none := by simp [Scan.over?, hs]
  have ht : r.turn sink = r.scan.stopTurn h := turn_stopped hs
  -- one round is left, in which the scan ends
  obtain ⟨k, hk⟩ := exists_next?_of_accepts hacc ho
  obtain ⟨-, hscan, hlog, hsink⟩ := next_eq hk
  have hover : k.scan.over? = some r.scan.result := by rw [hscan, ht]; rfl
  have hrest : r.rest sink = ⟨k.sink, r.scan.result, _, k.log⟩ :=
    (rest_next? hk).trans (Scan.runFrom_over hover)
  have hoff : (r.turn sink).offer.toList = _ := offer_stopped hs
  rw [hrest]
  refine ⟨?_, ?_, rfl, ?_⟩
  · rw [← hoff]
    exact emitted_next? hk
  · rw [← hoff]
    exact hsink
  · show k.log.toList.getLast?.bind Scan.Event.halt? = some h
    rw [hlog, ht]
    simp [Scan.stopTurn, Scan.Event.halt?]

/-- **A run that never sees a request before a step** goes the whole course. -/
theorem rest_unasked (hacc : ∀ st t, sink.accepts st t = true) (r : Round σ)
    (h : ∀ k m, r.Reaches sink k → k.scan.stage = .running m → k.asked sink = false) :
    (r.rest sink).log.toList = r.log.toList ++ r.scan.course.flatMap Turn.events ∧
      (r.rest sink).sink = r.scan.offers.foldl sink.push r.sink ∧
      (r.rest sink).result = r.scan.outcome := by
  cases ho : r.scan.over? with
  | some x =>
    rw [rest, Scan.runFrom_over ho, Scan.offers, Scan.course_over ho, Scan.outcome_over ho]
    exact ⟨by simp, rfl, rfl⟩
  | none =>
    obtain ⟨k, hk⟩ := exists_next?_of_accepts hacc ho
    obtain ⟨-, hscan, hlog, hsink⟩ := next_eq hk
    -- a request matters to a step alone
    have ht : r.turn sink = r.scan.turn false := by
      rcases hs : r.scan.stage with m | x | x
      · rw [turn, h r m .refl hs]
      · simp [turn, Scan.turn, hs]
      · simp [Scan.over?, hs] at ho
    rw [ht] at hscan hlog hsink
    obtain ⟨h1, h2, h3⟩ := rest_unasked hacc k fun j m hj => h j m (.head hk hj)
    rw [rest_next? hk, h1, h2, h3, hscan, hlog, hsink, Scan.offers_eq ho, Scan.outcome_eq ho,
      Scan.course_eq ho, List.foldl_append]
    exact ⟨by simp [Turn.events], rfl, rfl⟩
termination_by r.scan.budget
decreasing_by
  rw [hscan]
  exact Scan.budget_turn _ ho

/-! ### Rounds and steps -/

/-- **Where a run over a feed stands** before a step from a mode: the steps taken are the first of
its lexer, their tokens have been emitted, and the others are to come. -/
structure Along (f : Feed) (m : Mode) (r : Round σ) : Prop where
  steps : ∃ taken, (Lexer.ofFeed f).steps .text = taken ++ r.scan.lexer.steps m ∧
    taken.length = r.turns ∧ r.emitted = taken.filterMap (·.token)
  drawn : r.scan.lexer.reader.DrawnFrom f
  ending : r.scan.lexer.view.ending = f.ending

variable {f : Feed}

/-- With no request seen the turn steps. -/
theorem turn_unasked (hs : r.scan.stage = .running m) (ha : r.asked sink = false) :
    (r.turn sink).offer = (r.scan.lexer.step m).1.token ∧ (r.turn sink).next = { r.scan with
      lexer := (r.scan.lexer.step m).2
      stage := Scan.stageAfter (r.scan.lexer.step m).1.next } := by
  rw [turn, ha]
  exact Scan.turn_running hs

/-- A step comes after another that went on, before which no request was seen. -/
theorem step_of_next? (h : r.next? sink = some k) (hk : k.scan.stage = .running n) :
    ∃ m, r.scan.stage = .running m ∧ r.asked sink = false ∧
      (r.scan.lexer.step m).1.next = .proceed n ∧ k.scan.lexer = (r.scan.lexer.step m).2 ∧
        (r.turn sink).offer = (r.scan.lexer.step m).1.token := by
  obtain ⟨-, hscan, -, -⟩ := next_eq h
  have ho := (next?_eq_some.1 h).1
  rcases hs : r.scan.stage with m | x | x
  · cases ha : r.asked sink with
    | true => simp [hscan, turn, Scan.turn, hs, ha] at hk
    | false =>
      obtain ⟨hoff, hnext⟩ := turn_unasked hs ha
      rw [hscan, hnext] at hk
      refine ⟨m, rfl, rfl, ?_, by rw [hscan, hnext], hoff⟩
      cases hn : (r.scan.lexer.step m).1.next <;> simp_all [Scan.stageAfter]
  · simp [hscan, turn, Scan.turn, hs, Scan.stopTurn] at hk
  · simp [Scan.over?, hs] at ho

/-- A step moves a run along. -/
theorem along_next (h : r.Along f m) (hs : r.scan.stage = .running m)
    (hn : r.next? sink = some k) (hk : k.scan.stage = .running n) : k.Along f n := by
  obtain ⟨m', hm, -, hnext, hlex, hoff⟩ := step_of_next? hn hk
  obtain rfl : m = m' := Stage.running.inj (hs.symm.trans hm)
  obtain ⟨taken, h1, h2, h3⟩ := h.steps
  refine ⟨⟨taken ++ [(r.scan.lexer.step m).1], ?_, ?_, ?_⟩, ?_, ?_⟩
  · rw [h1, Lexer.steps_proceed hnext, hlex, List.append_assoc]; rfl
  · rw [(next_eq hn).1, List.length_append, h2]; rfl
  · rw [emitted_next? hn, h3, hoff, List.filterMap_append, Lexer.tokens_cons]
    simp
  · rw [hlex]
    exact Reader.drawn_of_moves h.drawn (r.scan.lexer.moves_step m)
  · rw [hlex, Lexer.ending_step, h.ending]

/-- **So every run goes along the steps of its lexer.** The induction is on the rounds. -/
theorem along_of_reaches {settings : Settings}
    (h : (start st (Scan.ofFeed f settings)).Reaches sink r) (hr : r.scan.stage = .running m) :
    r.Along f m := by
  induction h generalizing m with
  | refl =>
    obtain rfl : .text = m := Stage.running.inj hr
    exact ⟨⟨[], rfl, rfl, rfl⟩, Reader.drawn_ofFeed f, Scan.ending_ofFeed f settings⟩
  | tail _ hn ih =>
    obtain ⟨m', hm, -⟩ := step_of_next? hn hr
    exact along_next (ih hm) hm hn hr

/-! ### Requests seen and not seen -/

/-- What a round that asks for no stop leaves of a step. -/
theorem next_unasked (hs : r.scan.stage = .running m) (ha : r.asked sink = false)
    (hn : r.next? sink = some k) :
    k.scan.stage = Scan.stageAfter (r.scan.lexer.step m).1.next ∧
      k.emitted = r.emitted ++ (r.scan.lexer.step m).1.token.toList := by
  obtain ⟨hoff, hnext⟩ := turn_unasked hs ha
  obtain ⟨-, hscan, -, -⟩ := next_eq hn
  rw [emitted_next? hn, hscan, hnext, hoff]
  exact ⟨rfl, rfl⟩

/-- **A request seen before a step ends the run there.** -/
theorem rest_asked (hacc : ∀ st t, sink.accepts st t = true) (hs : r.scan.stage = .running m)
    (ha : r.asked sink = true) : (r.rest sink).offered = r.emitted ∧ (r.rest sink).sink = r.sink ∧
      (r.rest sink).result = r.scan.result ∧ (r.rest sink).halt? = some .cancelled := by
  have ho : r.scan.over? = none := by simp [Scan.over?, hs]
  have ht := turn_asked hs ha
  -- the round does nothing but stop the scan, and nothing is due after that
  obtain ⟨k, hk⟩ := exists_next?_of_accepts hacc ho
  obtain ⟨-, hscan, -, hsink⟩ := next_eq hk
  obtain ⟨h1, h2, h3, h4⟩ := rest_stopped (h := .cancelled) hacc (by rw [hscan, ht])
  rw [rest_next? hk, h1, h2, h3, h4, hscan, hsink, emitted_next? hk, ht]
  exact ⟨by simp [Scan.sendsEof], by simp [Scan.sendsEof], rfl, rfl⟩

/-- The run is cut short after the steps taken. -/
theorem cutAfter_of_asked {settings : Settings} (hacc : ∀ st t, sink.accepts st t = true)
    (h : (start st (Scan.ofFeed f settings)).Reaches sink r) (hs : r.scan.stage = .running m)
    (ha : r.asked sink = true) : r.turns < ((Lexer.ofFeed f).steps .text).length ∧
      (r.rest sink).CutAfter sink st (((Lexer.ofFeed f).steps .text).take r.turns) f
        r.scan.lexer.reader.feed := by
  obtain ⟨⟨taken, h1, h2, h3⟩, hd, he⟩ := along_of_reaches h hs
  obtain ⟨hoff, hkept, hres, hhalt⟩ := rest_asked hacc hs ha
  obtain ⟨ps, hp, hfail, hgood⟩ := Scan.result_of_drawn hd he
  have hpos : 0 < (r.scan.lexer.steps m).length := List.length_pos_iff.2 (Lexer.steps_ne_nil _ _)
  refine ⟨by rw [h1, List.length_append]; omega, ?_, ?_, hhalt, ⟨ps, hp⟩, fun qs hq e => ?_,
    fun qs hq hn => ?_⟩
  · rw [h1, ← h2, List.take_left, hoff, h3]
  · rw [hkept, hoff, sink_of_reaches h]
  · rw [hres, hfail, hp.failed_congr hq]
  · rw [hres]
    exact hgood fun e hm => hn e ((hp.failed_congr hq e).1 hm)

/-- **After the step in progress nothing is sent but the end of the input**, and that only if the
step was the last. -/
theorem rest_of_next (hacc : ∀ st t, sink.accepts st t = true) (hs : r.scan.stage = .running m)
    (ha : r.asked sink = false) (hn : r.next? sink = some k) (hk : k.asked sink = true) :
    ∃ last, (k.rest sink).offered =
        r.emitted ++ (r.scan.lexer.step m).1.token.toList ++ last ∧
      (last = [] ∨ (∃ x, (r.scan.lexer.step m).1.next = .halt x) ∧
        ∃ t, last = [t] ∧ t.kind = .eof) := by
  obtain ⟨hstage, hem⟩ := next_unasked hs ha hn
  rw [← hem]
  -- a step that goes on is followed by the round that sees the request
  cases hx : (r.scan.lexer.step m).1.next with
  | proceed n =>
    rw [hx] at hstage
    exact ⟨[], by rw [(rest_asked hacc hstage hk).1, List.append_nil], .inl rfl⟩
  | halt x =>
    rw [hx] at hstage
    refine ⟨_, (rest_stopped hacc hstage).1, ?_⟩
    split
    · exact .inr ⟨⟨x, rfl⟩, _, rfl, rfl⟩
    · exact .inl rfl
  | fault x =>
    rw [hx] at hstage
    have hover : k.scan.over? = some (.error (.fault x)) := by
      rw [Scan.over?, hstage]; rfl
    exact ⟨[], by rw [rest, Scan.runFrom_over hover, List.append_nil]; rfl, .inl rfl⟩

end Round

/-- **A request to stop cuts a run at a step.** Take the run over the same feed where nobody asks
for a stop, with the same sink, and the steps that it takes in its rounds: it sends their tokens,
and the end of the input after the last where it is due. If the run sees a request before some step,
then that is one of these steps, and the run is cut short after the steps before it. If it sees none
before any step, it comes to the same as the other. In both cases nothing is sent after a request
but the token of the step in progress and, if that step is the last, the end of the input. -/
theorem cancellation {σ : Type} {f : Feed} {sink : Sink σ} (settings : Settings) (st : σ)
    (h : f.delivered.length ≤ counterMax) (hacc : ∀ st t, sink.accepts st t = true) :
    let run := (Scan.ofFeed f settings).run sink st
    let free := (Scan.ofFeed f.calm settings).run sink.patient st
    let steps := (Lexer.ofFeed f.calm).steps .text
    let first := Round.start st (Scan.ofFeed f settings)
    ((∀ r m, (Round.start st (Scan.ofFeed f.calm settings)).Reaches sink.patient r →
        r.scan.stage = .running m → r.scan.lexer.steps m = steps.drop r.turns) ∧
      (∀ t ∈ steps.filterMap (·.token), t.kind ≠ .eof) ∧
      ∃ last x t, steps.getLast? = some last ∧ last.next = .halt x ∧ t.kind = .eof ∧
        free.halt? = some x ∧ free.offered = steps.filterMap (·.token) ++
          if (Scan.ofFeed f settings).sendsEof x then [t] else []) ∧
    (∀ r m, first.Reaches sink r → r.scan.stage = .running m → r.asked sink = true →
      r.turns < steps.length ∧
        run.CutAfter sink st (steps.take r.turns) f r.scan.lexer.reader.feed) ∧
    ((∀ r m, first.Reaches sink r → r.scan.stage = .running m → r.asked sink = false) →
      run.offered = free.offered ∧ run.sink = free.sink ∧ run.halt? = free.halt? ∧
        run.result = free.result) ∧
    ∀ r k m, first.Reaches sink r → r.scan.stage = .running m → r.asked sink = false →
      r.next? sink = some k → k.asked sink = true →
      ∃ last, run.offered = r.emitted ++ (r.scan.lexer.step m).1.token.toList ++ last ∧
        (last = [] ∨ (∃ x, (r.scan.lexer.step m).1.next = .halt x) ∧
          ∃ t, last = [t] ∧ t.kind = .eof) := by
  intro run free steps first
  have hstops : (Scan.ofFeed f.calm settings).lexer.view.ending.stops = false := by
    rw [Scan.ending_ofFeed, f.calm.stops_ending, f.stops_calm]
  have hpatient : sink.patient.Accepting := ⟨hacc, fun _ _ => rfl⟩
  obtain ⟨hsink, hres, hlog⟩ :=
    Scan.runFrom_accepting (Scan.ofFeed f.calm settings) st 0 #[.started] hpatient hstops
  obtain ⟨hoff, hhalt⟩ := Scan.shown_of_log hlog
  -- nobody asks; a request is seen; none is seen; one comes during a step
  refine ⟨?_, fun r m hr hs ha => ?_, fun hn => ?_, fun r k m hr hs ha hk hka => ?_⟩
  · have hv : (Lexer.ofFeed f.calm).view = ⟨_, _, .start, .start, 0⟩ := Lexer.view_ofFeed f.calm
    have hfit : (Lexer.ofFeed f.calm).view.Fits .text := by
      rw [hv]
      rfl
    have hroom : (Lexer.ofFeed f.calm).view.Room := by
      rw [hv]
      exact View.room_ofFeed (by rwa [f.delivered_calm])
    obtain ⟨last, x, t, h1, h2, h3, h4⟩ :=
      Scan.sends_steps (s := Scan.ofFeed f.calm settings) rfl hfit hroom
    refine ⟨fun r m hr hs => ?_, Lexer.kind_steps hfit hroom, last, x, t, h1, h2, h3,
      hhalt.trans h4.halt, hoff.trans h4.offers⟩
    obtain ⟨⟨taken, hsteps, hlen, -⟩, -, -⟩ := Round.along_of_reaches hr hs
    rw [show steps = _ from hsteps, ← hlen, List.drop_left]
  · rw [show steps = _ from Scan.steps_calm f,
      show run = r.rest sink from (Round.rest_of_reaches hr).symm]
    exact Round.cutAfter_of_asked hacc hr hs ha
  · obtain ⟨h1, h2, h3⟩ := Round.rest_unasked hacc first hn
    have hlog : run.log.toList = [.started] ++ _ := h1
    obtain ⟨h4, h5⟩ := Scan.shown_of_log hlog
    obtain ⟨⟨ts, x, hs, hsc⟩, hout⟩ := Scan.sends_calm settings h
    refine ⟨?_, ?_, ?_, ?_⟩
    · exact (h4.trans hs.offers).trans (hoff.trans hsc.offers).symm
    · rw [show run.sink = _ from h2, show free.sink = _ from hsink, hsc.offers]
      exact congrArg (List.foldl sink.push st) hs.offers
    · exact (h5.trans hs.halt).trans (hhalt.trans hsc.halt).symm
    · rw [show run.result = _ from h3, show free.result = _ from hres]
      exact hout.symm
  · rw [show run = k.rest sink from (Round.rest_of_reaches (hr.tail hk)).symm]
    exact Round.rest_of_next hacc hs ha hk hka

/-- The request comes while a word is read, and the failed read after it in the same step. -/
theorem cancellation_failed_read :
    let e : ReadError := ⟨.connectionReset, "reset"⟩
    let f := Feed.ofItems [.bytes [0x28, 0x61], .stop, .failure e]
    let run := (Scan.ofFeed f .default).run .keeping #[]
    let steps := (Lexer.ofFeed f.calm).steps .text
    (f.delivered.length ≤ counterMax ∧ ∀ st t, Sink.keeping.accepts st t = true) ∧
    ∃ k g, k < steps.length ∧ run.CutAfter .keeping #[] (steps.take k) f g ∧
      run.offered = [⟨.openParen, "(", ⟨1, 0, 0⟩⟩, ⟨.identifier, "a", ⟨1, 1, 1⟩⟩] ∧
      run.result = .error (.read e) := by
  intro e f run steps
  have h : f.delivered.length ≤ counterMax := by decide
  have hacc : ∀ st t, Sink.keeping.accepts st t = true := fun _ _ => rfl
  obtain ⟨-, hcut, hsame, -⟩ := cancellation .default #[] h hacc
  -- the run sends less than it would if no request were seen
  have hless : run.offered ≠
      ((Scan.ofFeed f.calm .default).run Sink.keeping.patient #[]).offered := by decide +kernel
  obtain ⟨r, m, hr, hs, ha⟩ : ∃ r m, (Round.start #[] (Scan.ofFeed f .default)).Reaches .keeping r ∧
      r.scan.stage = .running m ∧ r.asked .keeping = true := by
    by_contra hn
    refine hless (hsame fun r m hr hs => ?_).1
    by_contra ha
    exact hn ⟨r, m, hr, hs, by simpa using ha⟩
  obtain ⟨hk, hc⟩ := hcut r m hr hs ha
  exact ⟨⟨h, hacc⟩, r.turns, _, hk, hc, by decide +kernel, by decide +kernel⟩

end ParenLex
