import ParenLex.Proofs.Lines

/-!
# Steps that take no token

A step from a mode that does not fit reads and takes back, and may meet the end of the input or
bytes that make no character. Unless it takes a token it leaves the lexer where it was: what comes
after it is what would have come without it.

* `answers_congr`: the answers to steps are those of the view.
* `view_step_of_untaken`: a step without a token leaves the view.
* `standstill`: what a step without a token leaves as it was.
-/

namespace ParenLex

namespace Lexer

/-- What there is to see of a step: its outcome, and the lexer as it shows itself after it. -/
structure Answer where
  step : Step
  position : Position
  eofToken : Token
  depth : Nat
  deriving DecidableEq

/-- The answers to steps from these modes, up to the first fault. -/
def answers (l : Lexer) : List Mode → List Answer
  | [] => []
  | m :: ms =>
    let k := (l.step m).2
    ⟨(l.step m).1, k.position, k.eofToken, k.depth⟩ ::
      match (l.step m).1.next with
      | .fault _ => []
      | _ => k.answers ms

variable {f : Feed} {d : Nat} {ts : List Token} {k l : Lexer} {m : Mode}

theorem step_eq_of_view (h : k.view = l.view) (m : Mode) :
    (k.step m).1 = (l.step m).1 ∧ (k.step m).2.view = (l.step m).2.view := by
  have hs : Prod.map id view (k.step m) = Prod.map id view (l.step m) := by
    rw [step_view, step_view, h]
  exact Prod.mk.inj hs

/-- What a lexer shows of itself is in its view. -/
theorem shown_congr (h : k.view = l.view) :
    k.position = l.position ∧ k.eofToken = l.eofToken ∧ k.depth = l.depth := by
  have hmark : k.mark = l.mark := congrArg View.mark h
  have hhere : k.here = l.here := congrArg View.here h
  have hdepth : k.depth = l.depth := congrArg View.depth h
  simp [position, eofToken, hmark, hhere, hdepth]

/-- **Lexers with the same view answer alike**, however long they are asked. -/
theorem answers_congr (h : k.view = l.view) (ms : List Mode) : k.answers ms = l.answers ms := by
  induction ms generalizing k l with
  | nil => rfl
  | cons m ms ih =>
    obtain ⟨hstep, hv⟩ := step_eq_of_view h m
    obtain ⟨h1, h2, h3⟩ := shown_congr hv
    have hrest : (k.step m).2.answers ms = (l.step m).2.answers ms := ih hv
    simp only [answers, hstep, h1, h2, h3, hrest]

/-- A step that takes no token, and is no fault, leaves the view. -/
theorem view_step_of_untaken (hn : ∀ e, (l.step m).1.next ≠ .fault e)
    (ht : ∀ t, (l.step m).1.token = some t → t.kind = .error) : (l.step m).2.view = l.view := by
  rcases stays_or_takes hn with ⟨hv, -⟩ | ⟨p, hp, -, htok⟩
  · exact hv
  · have hplain := Piece.plain_of_shaped hp.whole.shaped
    exact absurd (ht _ htok) hplain.error

/-- A step fails exactly if its token is an error. -/
theorem error_iff_failed (l : Lexer) (m : Mode) :
    (∃ t, (l.step m).1.token = some t ∧ t.kind = .error) ↔
      (l.step m).1.next = .halt .failed := by
  have ho := l.outcome_step m
  generalize l.step m = x at ho ⊢
  cases ho with
  | choose n k _ _ => simp [goto]
  | fail e k _ => simp [Token.error]
  | exhausted k _ => simp
  | take p n k hp _ => simpa using (Piece.plain_of_shaped hp.whole.shaped).error
  | fault k _ _ _ => simp

/-- **A step that takes no token leaves the lexer where it was**: positions and depth, and all that
later steps answer, itself repeated among them. A step answers with an error exactly if it halts as
failed, and whatever it does, the mark is where the reader is after it. -/
theorem standstill (hl : Reached f d ts l) (m : Mode)
    (hn : ∀ e, (l.step m).1.next ≠ .fault e) :
    let k := (l.step m).2
    ((∀ t, (l.step m).1.token = some t → t.kind = .error) →
      k.position = l.position ∧ k.eofToken = l.eofToken ∧ k.depth = l.depth ∧
        (∀ ms, k.answers ms = l.answers ms) ∧ (k.step m).1 = (l.step m).1) ∧
    ((∃ t, (l.step m).1.token = some t ∧ t.kind = .error) ↔
      (l.step m).1.next = .halt .failed) ∧
    k.position = k.eofToken.position := by
  intro k
  refine ⟨?_, l.error_iff_failed m, ?_⟩
  · intro ht
    have hv : k.view = l.view := view_step_of_untaken hn ht
    obtain ⟨h1, h2, h3⟩ := shown_congr hv
    exact ⟨h1, h2, h3, answers_congr hv, (step_eq_of_view hv m).1⟩
  · have hmark : k.mark = k.here := (follows_of_reached (hl.step m hn)).mark
    exact congrArg Place.position hmark

/-- After an open paren at depth 7 a word is looked for, where bytes come that make no character. -/
theorem standstill_undecodable :
    let f : Feed := .ofItems [.bytes [0x28, 0xC3, 0x28]]
    let l := (((ofFeed f).withDepth 7).step .openParen).2
    Reached f 7 [⟨.openParen, "(", .start⟩] l ∧ (l.step .identifier).1.next = .halt .failed ∧
      l.depth = 8 ∧ (l.step .identifier).2.depth = 8 ∧
      ∀ ms, (l.step .identifier).2.answers ms = l.answers ms := by
  intro f l
  have hopen : (((ofFeed f).withDepth 7).step .openParen).1 =
      ⟨some ⟨.openParen, "(", .start⟩, .proceed .insideParen⟩ := by decide +kernel
  have hfail : (l.step .identifier).1.next = .halt .failed := by decide +kernel
  have hkind : (l.step .identifier).1.token.map Token.kind = some .error := by decide +kernel
  have hdepth : l.depth = 8 := by decide +kernel
  have hl : Reached f 7 [⟨.openParen, "(", .start⟩] l := by
    have hs := (Reached.start (f := f) (d := 7)).step .openParen (by simp [hopen])
    rwa [hopen] at hs
  obtain ⟨hstill, -, -⟩ := standstill hl .identifier (by simp [hfail])
  obtain ⟨-, -, h1, h2, -⟩ := hstill fun t ht => by simpa [ht] using hkind
  exact ⟨hl, hfail, hdepth, h1.trans hdepth, h2⟩

end Lexer

end ParenLex
