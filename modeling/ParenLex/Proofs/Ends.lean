import ParenLex.Proofs.Source
import ParenLex.Proofs.Tokens

/-!
# How scans end

A scan that nobody breaks off stops where its text comes to an obstacle or to its end. In the second
case alone its reader has been at the end of the feed, and has met the failed read if the characters
run out of bytes there.

* `exists_stop`: where a scan stops that steps from a mode that fits.
* `ends_of_rest`, `ends_of_end`: what the scan of a feed has asked for when it is over, and its
  result.
* `run_accepting`: the tokens, the halt and the result of a run.
-/

namespace ParenLex

/-- A step that does not go on, before no characters, has been at the end of the feed. -/
theorem Lexer.leftover_of_stop {l : Lexer} {m : Mode} (hm : l.view.Fits m)
    (ha : l.view.ahead = []) (hn : ∀ k, (l.step m).1.next ≠ .proceed k) :
    (l.step m).2.reader.leftover ≠ none := by
  obtain ⟨k, hk, hv, he⟩ := l.peek_eq
  have hl : k.reader.leftover ≠ none := by rw [he ha]; simp
  rw [ha] at hk
  have hh : ∀ c, l.view.ahead.head? ≠ some c := by simp [ha]
  cases m with
  | text =>
    rw [step, text, hk]
    dsimp only [List.head?_nil]
    split <;> exact hl
  | insideParen =>
    rw [step, insideParen] at hn ⊢
    split at hn
    · exact absurd rfl (hn _)
    · next hd =>
      obtain ⟨j, hj, -, hje⟩ := k.peek_eq
      rw [hv, ha] at hj hje
      rw [if_neg hd, hk]
      dsimp only [List.head?_nil]
      rw [unexpected, hj]
      dsimp only [List.head?_nil, fail]
      rw [hje rfl]
      simp
  | openParen => exact absurd hm (hh _)
  | closeParen => exact absurd hm.2 (hh _)
  | identifier => obtain ⟨-, c, hc, -⟩ := hm; exact absurd hc (hh c)
  | number => obtain ⟨-, c, hc, -⟩ := hm; exact absurd hc (hh c)
  | whitespace => obtain ⟨c, hc, -⟩ := hm; exact absurd hc (hh c)
  | comment => exact absurd hm (hh _)

namespace Scan

/-- **The scan at the end of its course.** -/
def final (s : Scan) : Scan := (s.course.getLast?.map (·.next)).getD s

variable {s k : Scan} {f : Feed} {h : Halt} {m : Mode}

theorem final_over {r : Except ScanError Unit} (h : s.over? = some r) : s.final = s := by
  rw [final, course_over h]; rfl

theorem final_eq (h : s.over? = none) : s.final = (s.turn false).next.final := by
  rw [final, final, course_eq h]
  cases hc : (s.turn false).next.course with
  | nil => rfl
  | cons t ts =>
    rw [List.getLast?_cons_cons]
    cases hl : (t :: ts).getLast? with
    | none => simp at hl
    | some u => rfl

/-- The scan is over then, with its outcome. -/
theorem over_final (s : Scan) : s.final.over? = some s.outcome := by
  fun_induction course s with
  | case1 s r h => rw [final_over h, outcome_over h, h]
  | case2 s h ih => rw [final_eq h, outcome_eq h, ih]

/-- **The scan stops at `k`**, which says how it ends: with the result that `k` has, and with the
reader that `k` has, which has been at the end unless characters are left. -/
structure StopsAt (s : Scan) (f : Feed) (k : Scan) : Prop where
  final : s.final.lexer = k.lexer.takeFailure.2
  outcome : s.outcome = k.result
  drawn : k.lexer.reader.DrawnFrom f
  ending : k.lexer.view.ending = s.lexer.view.ending
  leftover : k.lexer.reader.leftover = none ↔ s.lexer.view.munch.rest ≠ []

/-- A turn more at the beginning. -/
theorem StopsAt.turn (ho : s.over? = none) (hk : (s.turn false).next.StopsAt f k)
    (he : (s.turn false).next.lexer.view.ending = s.lexer.view.ending)
    (hr : (s.turn false).next.lexer.view.munch.rest = s.lexer.view.munch.rest) :
    s.StopsAt f k := by
  refine ⟨?_, ?_, hk.drawn, hk.ending.trans he, ?_⟩
  · rw [final_eq ho, hk.final]
  · rw [outcome_eq ho, hk.outcome]
  · rw [hk.leftover, hr]

/-- A stopped scan stops where it is. -/
theorem stopsAt_self (hs : s.stage = .stopped h) :
    s.final.lexer = s.lexer.takeFailure.2 ∧ s.outcome = s.result := by
  have ho : s.over? = none := by simp [over?, hs]
  have ht : s.turn false = s.stopTurn h := by simp [turn, hs]
  have hn : (s.stopTurn h).next.over? = some s.result := rfl
  refine ⟨?_, ?_⟩
  · rw [final_eq ho, ht, final_over hn]; rfl
  · rw [outcome_eq ho, ht, outcome_over hn]

/-- Where a scan comes to a stop because no piece is left, the characters left are those that it
stood before. -/
theorem stopsAt_turn (ho : s.over? = none) (hs : s.stage = .running m)
    (hm : s.lexer.view.Fits m) (hd : s.lexer.reader.DrawnFrom f)
    (hn : (s.lexer.step m).1.next = .halt h) (hv : (s.lexer.step m).2.view = s.lexer.view)
    (hp : Piece.first? s.lexer.view.depth s.lexer.view.ahead = none) :
    s.StopsAt f (s.turn false).next := by
  have hnext := (turn_running hs).2
  have hd' := Reader.drawn_of_moves hd (s.lexer.moves_step m)
  obtain ⟨h1, h2⟩ := stopsAt_self (s := (s.turn false).next) (h := h) (by rw [hnext, hn]; rfl)
  refine ⟨by rw [final_eq ho, h1], by rw [outcome_eq ho, h2], hnext ▸ hd', ?_, ?_⟩
  · rw [hnext]
    exact s.lexer.ending_step m
  · rw [View.munch_eq hp, hnext]
    refine ⟨fun hl ha => ?_, fun ha => ?_⟩
    · exact Lexer.leftover_of_stop hm ha (fun k hk => by rw [hn] at hk; cases hk) hl
    · by_contra hl
      exact ha ((congrArg View.ahead hv).symm.trans (Reader.ahead_of_leftover hd' hl))

/-- **A scan that steps from a mode that fits comes to a stop.** The induction is on the course. -/
theorem exists_stop (hs : s.stage = .running m) (hm : s.lexer.view.Fits m)
    (hr : s.lexer.view.Room) (hd : s.lexer.reader.DrawnFrom f) : ∃ k, s.StopsAt f k := by
  fun_induction course s generalizing m with
  | case1 s r h => simp [over?, hs] at h
  | case2 s h ih =>
    have hnext := (turn_running hs).2
    have hd' := Reader.drawn_of_moves hd (s.lexer.moves_step m)
    have he : (s.turn false).next.lexer.view.ending = s.lexer.view.ending := by
      rw [hnext]
      exact s.lexer.ending_step m
    have hstop := fun hh => stopsAt_turn (h := hh) h hs hm hd
    have hg := Lexer.goes_step hm hr
    generalize s.lexer.step m = o at hg hnext hd' hstop
    cases hg with
    | choose k l _ hv hk =>
      obtain ⟨j, hj⟩ := ih (m := k) (by rw [hnext]; rfl) (by rw [hnext]; exact hv ▸ hk)
        (by rw [hnext]; exact hv ▸ hr) (by rw [hnext]; exact hd')
      exact ⟨j, hj.turn h he (by rw [hnext]; exact congrArg (fun v => v.munch.rest) hv)⟩
    | take p k l hp hv hk =>
      obtain ⟨j, hj⟩ := ih (m := k) (by rw [hnext]; rfl) (by rw [hnext]; exact hv ▸ hk)
        (by rw [hnext]; exact hv ▸ View.room_after hr hp) (by rw [hnext]; exact hd')
      refine ⟨j, hj.turn h he ?_⟩
      rw [hnext]
      show l.view.munch.rest = _
      rw [hv, View.munch, View.munch, munch_of_some hp]
      rfl
    | fail e l _ hp ho hv => exact ⟨_, hstop .failed rfl hv hp⟩
    | exhausted l _ hp ho hv => exact ⟨_, hstop .exhausted rfl hv hp⟩

/-! ### Scans of feeds -/

/-- The reader that the scan of a feed is left with, as far as it matters. -/
theorem stop_ofFeed (settings : Settings) (h : f.delivered.length ≤ counterMax) :
    ∃ r : Reader, r.DrawnFrom f ∧ r.ending = f.ending ∧
      (Scan.ofFeed f settings).final.lexer.reader.feed = r.feed ∧
      (r.leftover = none ↔ (munch 0 f.chars).rest ≠ []) ∧
      (r.failure = none → (Scan.ofFeed f settings).outcome = .ok ()) ∧
      ∀ x, r.failure = some x → (Scan.ofFeed f settings).outcome = .error (.read x.error) := by
  have hv : (Scan.ofFeed f settings).lexer.view = ⟨f.chars, f.ending, .start, .start, 0⟩ :=
    Lexer.view_ofFeed f
  obtain ⟨k, hk⟩ := exists_stop (s := Scan.ofFeed f settings) (m := .text) (f := f) rfl
    (by rw [hv]; rfl) (by rw [hv]; exact View.room_ofFeed h) (Reader.drawn_ofFeed f)
  refine ⟨k.lexer.reader, hk.drawn, ?_, ?_, ?_, fun hf => ?_, fun x hf => ?_⟩
  · exact hk.ending.trans (congrArg View.ending hv)
  · rw [hk.final]; rfl
  · rw [hk.leftover, hv]; rfl
  · rw [hk.outcome, result, Lexer.takeFailure, Reader.takeFailure, hf]; rfl
  · rw [hk.outcome, result, Lexer.takeFailure, Reader.takeFailure, hf]; rfl

/-- **Before an obstacle in the text a scan asks for bytes alone**, and its result is good. -/
theorem ends_of_rest (settings : Settings) (h : f.delivered.length ≤ counterMax)
    (hr : (munch 0 f.chars).rest ≠ []) :
    f.Within (Scan.ofFeed f settings).final.lexer.reader.feed ∧
      (Scan.ofFeed f settings).outcome = .ok () := by
  obtain ⟨r, hd, -, hf, hl, hok, -⟩ := stop_ofFeed settings h
  obtain ⟨h1, h2⟩ := Reader.within_of_reading hd (hl.2 hr)
  exact ⟨hf ▸ h1, hok h2⟩

/-- **At the end of its text a scan asks for more bytes if the characters run out of them**, and its
result is then the failed read, if there is one. -/
theorem ends_of_end (settings : Settings) (h : f.delivered.length ≤ counterMax)
    (hr : (munch 0 f.chars).rest = []) :
    (f.RunsOut → f.Beyond (Scan.ofFeed f settings).final.lexer.reader.feed ∧
      ∀ e, f.failure? = some e → (Scan.ofFeed f settings).outcome = .error (.read e)) ∧
    (¬ f.RunsOut → f.Within (Scan.ofFeed f settings).final.lexer.reader.feed ∧
      (Scan.ofFeed f settings).outcome = .ok ()) := by
  obtain ⟨r, hd, he, hf, hl, hok, herr⟩ := stop_ofFeed settings h
  have hl : r.leftover ≠ none := fun hn => hl.1 hn hr
  obtain ⟨h1, h2⟩ := Reader.requests_of_ended hd hl
  have hfail : r.failure.map (·.error) = f.ending.failure := by
    obtain ⟨bs, hb⟩ := Option.ne_none_iff_exists'.1 hl
    rw [← he, Reader.ending, hb]
  rw [hf]
  refine ⟨fun hr => ⟨h1 hr, fun e hfe => ?_⟩, fun hr => ⟨h2 hr, hok ?_⟩⟩
  · rw [Feed.failure_of_runsOut hr, hfe] at hfail
    obtain ⟨x, hx, rfl⟩ := Option.map_eq_some_iff.1 hfail
    exact herr x hx
  · rw [Feed.failure_of_not_runsOut hr] at hfail
    exact Option.map_eq_none_iff.1 hfail

/-- **What a run over a feed comes to** when it is not told to stop and its sink takes every
token. -/
theorem run_accepting {σ : Type} {sink : Sink σ} (settings : Settings) (st : σ)
    (h : f.delivered.length ≤ counterMax) (hs : f.stops = false) (ha : sink.Accepting) :
    let r := (Scan.ofFeed f settings).run sink st
    let ts := (munch 0 f.chars).tokens f.ending .start settings.eofAfterError
    r.offered = ts ∧ r.sink = ts.foldl sink.push st ∧
      r.halt? = some ((munch 0 f.chars).halt f.ending) ∧
      r.result = (Scan.ofFeed f settings).outcome := by
  intro r ts
  have hn : (Scan.ofFeed f settings).lexer.view.ending.stops = false := by
    rw [ending_ofFeed, f.stops_ending, hs]
  have hsend := Scan.sends_ofFeed settings h
  obtain ⟨h1, h2, -⟩ := runFrom_accepting (Scan.ofFeed f settings) st 0 #[.started] ha hn
  obtain ⟨h3, h4⟩ := offered_accepting (Scan.ofFeed f settings) st ha hn
  exact ⟨h3.trans hsend.offers, h1.trans (by rw [hsend.offers]), h4.trans hsend.halt, h2⟩

end Scan

end ParenLex
