import ParenLex.Proofs.Course
import ParenLex.Proofs.Modes

/-!
# The tokens of a scan

A scan that nobody breaks off sends the pieces of its text, and then the obstacle that it met or the
end of the input.

* `sends_of_fits`: what a scan sends from any mode that fits.
* `sends_ofFeed`: what the scan of a feed sends.
* `tokenize_eq`: the tokens of a text.
-/

namespace ParenLex

open Piece (texts layout)

namespace Munch

/-- The tokens after those of the pieces. -/
def closing (m : Munch) (e : Feed.Ending) (place : Place) (eofAfterError : Bool) : List Token :=
  match m.obstacle? e with
  | none => [.eof place.position]
  | some o => .error o.message place.position :: if eofAfterError then [.eof place.position] else []

/-- **The tokens that a text makes** when it is laid out from a place on. -/
def tokens (m : Munch) (e : Feed.Ending) (start : Place) (eofAfterError : Bool) : List Token :=
  layout start m.pieces ++ m.closing e (start.advance (texts m.pieces)) eofAfterError

/-- How a scan of the text ends. -/
def halt (m : Munch) (e : Feed.Ending) : Halt :=
  match m.obstacle? e with
  | none => .exhausted
  | some _ => .failed

variable {m : Munch} {e : Feed.Ending} {start : Place} {b : Bool}

theorem tokens_cons (p : Piece) : { m with pieces := p :: m.pieces }.tokens e start b =
    ⟨p.kind, String.ofList p.text, start.position⟩ :: m.tokens e (start.advance p.text) b := by
  simp only [tokens, layout, Piece.texts_cons, Place.advance_append]
  rfl

theorem tokens_nil (h : m.pieces = []) : m.tokens e start b = m.closing e start b := by
  simp [tokens, h, layout]

end Munch

namespace Scan

/-- **What a scan comes to when nobody breaks it off**: the tokens that it offers, the halt that it
logs last, and a good result unless its feed has failed. -/
structure Sends (s : Scan) (ts : List Token) (h : Halt) : Prop where
  offers : s.offers = ts
  halt : (s.course.flatMap Turn.events).getLast?.bind Event.halt? = some h
  outcome : s.lexer.view.ending.failure = none → s.outcome = .ok ()

variable {s : Scan} {ts : List Token} {h : Halt} {m : Mode}

/-- A turn more at the beginning. -/
theorem Sends.turn (ho : s.over? = none) (hn : (s.turn false).next.Sends ts h)
    (he : (s.turn false).next.lexer.view.ending = s.lexer.view.ending) :
    s.Sends ((s.turn false).offer.toList ++ ts) h := by
  refine ⟨?_, ?_, fun hf => ?_⟩
  · rw [offers_eq ho, hn.offers]
  · have hl := hn.halt
    rw [course_eq ho, List.flatMap_cons, List.getLast?_append]
    cases hk : ((s.turn false).next.course.flatMap Turn.events).getLast? with
    | none => simp [hk] at hl
    | some e => rw [hk] at hl; exact hl
  · rw [outcome_eq ho]
    exact hn.outcome (he ▸ hf)

/-- The last turn. -/
theorem sends_stopped (hs : s.stage = .stopped h) :
    s.Sends (if s.sendsEof h then [s.lexer.eofToken] else []) h := by
  have ho : s.over? = none := by simp [over?, hs]
  have ht : s.turn false = s.stopTurn h := by simp [turn, hs]
  have hn : (s.stopTurn h).next.over? = some s.result := rfl
  have hc : s.course = [s.stopTurn h] := by rw [course_eq ho, ht, course_over hn]
  refine ⟨?_, ?_, fun hf => ?_⟩
  · rw [Scan.offers, hc]
    cases hk : s.sendsEof h <;> simp [stopTurn, hk]
  · simp [hc, Turn.events, stopTurn, Event.halt?]
  · have hr : s.lexer.reader.failure = none := Reader.failure_of_ending hf
    rw [outcome_eq ho, ht, outcome_over hn]
    simp [result, Lexer.takeFailure, Reader.takeFailure, hr]

/-- A turn that steps. -/
theorem turn_running (hs : s.stage = .running m) :
    (s.turn false).offer = (s.lexer.step m).1.token ∧ (s.turn false).next =
      { s with lexer := (s.lexer.step m).2, stage := stageAfter (s.lexer.step m).1.next } := by
  simp [turn, hs, stepTurn]

/-- **A scan sends the pieces of the text ahead and what comes after them.** The induction is on the
course; what carries it is that the mode fits and that the last token ends where the reader is. -/
theorem sends_of_fits {v : View} (hs : s.stage = .running m) (hl : s.lexer.view = v)
    (hm : v.Fits m) (hr : v.Room) (hh : v.mark = v.here) :
    s.Sends (v.munch.tokens v.ending v.mark s.eofAfterError) (v.munch.halt v.ending) := by
  fun_induction course s generalizing m v with
  | case1 s r h => simp [over?, hs] at h
  | case2 s h ih =>
    subst hl
    obtain ⟨h2, h3⟩ := turn_running hs
    have he : (s.turn false).next.lexer.view.ending = s.lexer.view.ending := by
      rw [h3]
      exact s.lexer.ending_step m
    have hg := Lexer.goes_step hm hr
    generalize s.lexer.step m = o at hg h2 h3
    cases hg with
    | choose k l _ hv hk =>
      -- nothing is read, and the same text is ahead
      have hn := ih (by rw [h3]; rfl) (by rw [h3]; exact hv) hk hr hh
      have ht := Sends.turn h hn he
      rw [h2, h3] at ht
      exact ht
    | take p k l hp hv hk =>
      -- the token is the first piece, and the rest of the text comes after it
      have hn := ih (by rw [h3]; rfl) (by rw [h3]; exact hv) hk (View.room_after hr hp) rfl
      have ht := Sends.turn h hn he
      have hm : s.lexer.view.munch = { (s.lexer.view.after p).munch with
          pieces := p :: (s.lexer.view.after p).munch.pieces } := munch_of_some hp
      rw [hm, Munch.tokens_cons, hh]
      rw [h2, h3, Lexer.position, show s.lexer.mark = _ from hh] at ht
      exact ht
    | fail e l _ hp ho hv =>
      -- no piece is left, and one turn remains
      have hn : (s.turn false).next.Sends _ .failed := sends_stopped (by rw [h3]; rfl)
      have ht := Sends.turn h hn he
      rw [Munch.tokens_nil (by rw [View.munch_eq hp]), Munch.closing, Munch.halt, ho]
      rw [h2, h3] at ht
      have hp : l.eofToken = .eof s.lexer.view.mark.position := by
        rw [Lexer.eofToken, show l.here = l.view.here from rfl, hv, hh]
      rw [hp] at ht
      exact ht
    | exhausted l _ hp ho hv =>
      have hn : (s.turn false).next.Sends _ .exhausted := sends_stopped (by rw [h3]; rfl)
      have ht := Sends.turn h hn he
      rw [Munch.tokens_nil (by rw [View.munch_eq hp]), Munch.closing, Munch.halt, ho]
      rw [h2, h3] at ht
      have hp : l.eofToken = .eof s.lexer.view.mark.position := by
        rw [Lexer.eofToken, show l.here = l.view.here from rfl, hv, hh]
      rw [hp] at ht
      exact ht

end Scan

/-- The depth has room for all parens that a feed within the counter can hold. -/
theorem View.room_ofFeed {f : Feed} (h : f.delivered.length ≤ counterMax) :
    View.Room ⟨f.chars, f.ending, .start, .start, 0⟩ := by
  obtain ⟨after, hd, -, -⟩ := f.delivered_eq
  have h1 := Utf8.length_le_byteSize f.chars
  have h2 := congrArg List.length hd
  rw [List.length_append, Utf8.length_encode] at h2
  unfold View.Room
  dsimp only
  omega

theorem Scan.ending_ofFeed (f : Feed) (st : Settings) :
    (Scan.ofFeed f st).lexer.view.ending = f.ending :=
  congrArg View.ending (Lexer.view_ofFeed f)

/-- **What the scan of a feed sends.** -/
theorem Scan.sends_ofFeed {f : Feed} (st : Settings) (h : f.delivered.length ≤ counterMax) :
    (Scan.ofFeed f st).Sends ((munch 0 f.chars).tokens f.ending .start st.eofAfterError)
      ((munch 0 f.chars).halt f.ending) := by
  have hm : View.Fits ⟨f.chars, f.ending, .start, .start, 0⟩ .text := rfl
  exact sends_of_fits rfl (Lexer.view_ofFeed f) hm (View.room_ofFeed h) rfl

/-- Its result is good where no read fails. -/
theorem Scan.outcome_ofFeed {f : Feed} (st : Settings) (h : f.delivered.length ≤ counterMax)
    (hf : f.failure? = none) : (Scan.ofFeed f st).outcome = .ok () := by
  refine (sends_ofFeed st h).outcome ?_
  rw [ending_ofFeed]
  rcases f.failure_ending with he | he
  · exact he
  · exact he.trans hf

/-- **The tokens of a text**, and that there is no error but in them. -/
theorem tokenize_eq {text : String} (h : text.utf8ByteSize ≤ counterMax) :
    tokenize? text = .ok (tokenize text) ∧
      tokenize text = (munch 0 text.toList).tokens ⟨[], none, false⟩ .start false := by
  have hd : (Feed.ofText text).delivered.length ≤ counterMax := by
    rwa [Feed.delivered_ofText, Utf8.length_encode, Utf8.byteSize_toList]
  have hs := Scan.sends_ofFeed .default hd
  rw [Feed.chars_ofText, Feed.ending_ofText] at hs
  have hv : (Scan.ofFeed (.ofText text) .default).lexer.view.ending = ⟨[], none, false⟩ :=
    (Scan.ending_ofFeed _ _).trans (Feed.ending_ofText text)
  obtain ⟨h1, h2, -⟩ := Scan.runFrom_accepting (Scan.ofFeed (.ofText text) .default) #[] 0
    #[.started] Sink.accepting_keeping (by rw [hv])
  refine ⟨?_, ?_⟩
  · rw [tokenize?, scanText, Scan.run, h2, hs.outcome (by rw [hv])]; rfl
  · rw [tokenize, scanText, Scan.run, h1, hs.offers]
    simp [Sink.keeping, Settings.default]

end ParenLex
