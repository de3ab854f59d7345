import ParenLex.Proofs.Ends
import ParenLex.Proofs.Message
import ParenLex.Proofs.RoundTrip
import ParenLex.Proofs.Rounds

/-!
# The nesting of parens

Before every turn of a run the depth is the number of parens opened and not yet closed, and the
lexer stands before the character that its mode awaits. So the modes that take a token always get
one, and a scan can only fail between tokens.

* `nests_turn`: a turn preserves the order of the parens.
* `step_cases`: what may come of a step.
* `nesting_reached`: both, for every round that a run reaches, and what follows for the run.
-/

namespace ParenLex

namespace Token

/-- How many open parens there are among tokens. -/
def opens (ts : List Token) : Nat := ts.countP (·.kind = .openParen)

/-- How many close parens there are among tokens. -/
def closes (ts : List Token) : Nat := ts.countP (·.kind = .closeParen)

variable {ts us : List Token} {o : Option Token} {d e : Nat}

theorem opens_append (ts us : List Token) : opens (ts ++ us) = opens ts + opens us :=
  List.countP_append

theorem closes_append (ts us : List Token) : closes (ts ++ us) = closes ts + closes us :=
  List.countP_append

/-- **No more parens are closed than opened**, at any time, and `d` are open at the end. -/
structure Balance (ts : List Token) (d : Nat) : Prop where
  depth : d + closes ts = opens ts
  prefixes : ∀ us, us <+: ts → closes us ≤ opens us

theorem balance_nil : Balance [] 0 := by
  refine ⟨rfl, fun us hu => ?_⟩
  rw [List.prefix_nil.1 hu]
  exact Nat.le_refl 0

/-- What comes after tokens in balance may move the depth along. -/
theorem Balance.append (h : Balance ts d) (he : e + closes o.toList = d + opens o.toList) :
    Balance (ts ++ o.toList) e := by
  have hd : e + closes (ts ++ o.toList) = opens (ts ++ o.toList) := by
    have := h.depth
    rw [opens_append, closes_append]
    omega
  refine ⟨hd, fun us hu => ?_⟩
  cases o with
  | none => exact h.prefixes us (by simpa using hu)
  | some t =>
    rcases List.prefix_concat_iff.1 hu with rfl | hu
    · exact hd ▸ Nat.le_add_left _ e
    · exact h.prefixes us hu

end Token

namespace Lexer

/-- **What a mode awaits** of the depth and of the next character. -/
def Awaits (l : Lexer) : Mode → Prop
  | .text => l.depth = 0
  | .insideParen => True
  | .openParen => l.peek.1 = some '('
  | .closeParen => 0 < l.depth ∧ l.peek.1 = some ')'
  | .identifier => 0 < l.depth ∧
      ∃ c, l.peek.1 = some c ∧ isWordChar c = true ∧ isDigit c = false
  | .number => 0 < l.depth ∧ ∃ c, l.peek.1 = some c ∧ isDigit c = true
  | .whitespace => ∃ c, l.peek.1 = some c ∧ isBlank c = true
  | .comment => l.peek.1 = some ';'

variable {l : Lexer} {m : Mode}

theorem awaits_iff : l.Awaits m ↔ l.view.Fits m := by
  obtain ⟨k, hk, -⟩ := l.peek_eq
  have hp : l.peek.1 = l.view.ahead.head? := by rw [hk]
  cases m <;> simp only [Awaits, View.Fits, hp] <;> rfl

theorem eq_between (h : m = l.between) :
    m = .text ∧ l.depth = 0 ∨ m = .insideParen ∧ 0 < l.depth := by
  unfold between at h
  split at h
  · next hd => exact .inl ⟨h, hd⟩
  · next hd => exact .inr ⟨h, Nat.pos_of_ne_zero hd⟩

/-- **What may come of a step** from a mode that has what it awaits: between tokens a mode is chosen,
or no token can be taken; otherwise one is taken. -/
inductive Comes (l : Lexer) (m : Mode) : Step → Prop
  | choose (k : Mode) : m = .text ∨ m = .insideParen → Comes l m ⟨none, .proceed k⟩
  | take (t : Token) (k : Mode) : t.kind ≠ .error → Comes l m ⟨some t, .proceed k⟩
  | fail (o : LexError) : m = l.between → o ≠ .character ')' →
      Comes l m ⟨some (.error o.message l.position), .halt .failed⟩
  | exhausted : m = l.between → Comes l m ⟨none, .halt .exhausted⟩

theorem step_cases (hm : l.Awaits m) (hr : l.view.Room) : l.Comes m (l.step m).1 := by
  have hg := goes_step (awaits_iff.1 hm) hr
  generalize l.step m = x at hg
  cases hg with
  | choose k j hc _ _ => exact .choose k hc
  | take p k j hp _ _ => exact .take _ k (Piece.plain_first? hp).error
  | fail o j hb hp ho _ =>
    refine .fail o hb ?_
    -- a close paren is in the way only where none is open, and is reported in another way there
    rintro rfl
    rw [View.munch_eq hp, Munch.obstacle?] at ho
    dsimp only at ho
    split at ho
    · next c cs ha =>
      split at ho
      · cases ho
      · next hd =>
        obtain rfl := LexError.character.inj (Option.some.inj ho)
        rw [ha, Piece.first?_closeParen cs (Nat.pos_of_ne_zero hd)] at hp
        cases hp
    · split at ho
      · cases ho
      · split at ho <;> cases ho
  | exhausted j hb _ _ _ => exact .exhausted hb

end Lexer

namespace Scan

/-- **The parens are in order** before a turn of the scan of a feed, after `ts` have been emitted. -/
structure Nests (f : Feed) (ts : List Token) (s : Scan) : Prop where
  balance : Token.Balance ts s.lexer.depth
  ending : s.lexer.view.ending.bytes = f.ending.bytes
  running : ∀ m, s.stage = .running m → s.lexer.Awaits m ∧ s.lexer.view.Room
  exhausted : s.stage = .stopped .exhausted →
    s.lexer.depth = 0 ∧ s.lexer.reader.leftover = some [] ∧ f.ending.bytes = []

variable {s : Scan} {f : Feed} {ts : List Token} {m : Mode} {stop : Bool}

theorem nests_ofFeed (settings : Settings) (h : f.delivered.length ≤ counterMax) :
    (Scan.ofFeed f settings).Nests f [] := by
  have hv : (Scan.ofFeed f settings).lexer.view = ⟨f.chars, f.ending, .start, .start, 0⟩ :=
    Lexer.view_ofFeed f
  refine ⟨Token.balance_nil, by rw [hv], fun m hm => ?_, fun hx => by cases hx⟩
  obtain rfl : .text = m := Stage.running.inj hm
  exact ⟨rfl, hv ▸ View.room_ofFeed h⟩

/-- A step preserves the order of the parens. -/
theorem nests_step (h : s.Nests f ts) (hs : s.stage = .running m) :
    (s.turn false).next.Nests f (ts ++ (s.turn false).offer.toList) := by
  obtain ⟨hm, hr⟩ := h.running m hs
  have hm := Lexer.awaits_iff.1 hm
  obtain ⟨h1, h2⟩ := turn_running hs
  have he : (s.lexer.step m).2.view.ending.bytes = f.ending.bytes := by
    rw [Lexer.ending_step, h.ending]
  have hleft := s.lexer.leftover_of_stop hm
  have hg := Lexer.goes_step hm hr
  rw [h1, h2]
  generalize s.lexer.step m = x at hg he hleft
  cases hg with
  | choose k l _ hv hk =>
    -- the mode was chosen for the character that comes next
    have hd : l.depth = s.lexer.depth := congrArg View.depth hv
    refine ⟨h.balance.append (congrArg (· + 0) hd), he, fun m' hm' => ?_, fun hx => by cases hx⟩
    obtain rfl : k = m' := Stage.running.inj hm'
    exact ⟨Lexer.awaits_iff.2 (hv ▸ hk), show l.view.Room from hv ▸ hr⟩
  | take p k l hp hv hk =>
    have hd : l.depth = p.depthAfter s.lexer.depth := congrArg View.depth hv
    refine ⟨h.balance.append ?_, he, fun m' hm' => ?_, fun hx => by cases hx⟩
    · -- a close paren is only taken where one is open
      rw [hd]
      exact Piece.depthAfter_add (Piece.whole_first? hp).2
    · obtain rfl : k = m' := Stage.running.inj hm'
      exact ⟨Lexer.awaits_iff.2 (hv ▸ hk), show l.view.Room from hv ▸ View.room_after hr hp⟩
  | fail o l _ hp ho hv =>
    have hd : l.depth = s.lexer.depth := congrArg View.depth hv
    exact ⟨h.balance.append (congrArg (· + 0) hd), he, fun m' hm' => (by cases hm'),
      fun hx => by cases hx⟩
  | exhausted l _ hp ho hv =>
    have hd : l.depth = s.lexer.depth := congrArg View.depth hv
    refine ⟨h.balance.append (congrArg (· + 0) hd), he, fun m' hm' => (by cases hm'), fun _ => ?_⟩
    -- the text is at its end, where the reader has found nothing more
    rw [View.munch_eq hp] at ho
    obtain ⟨ha, hb, h0⟩ := Munch.obstacle?_eq_none.1 ho
    obtain ⟨bs, hbs⟩ := Option.ne_none_iff_exists'.1 (hleft ha fun k hk => by cases hk)
    have hx : l.view.ending.bytes = bs := by
      show l.reader.ending.bytes = bs
      rw [Reader.ending, hbs]
    have hb : bs = [] := by rw [← hx, hv]; exact hb
    exact ⟨hd.trans h0, hb ▸ hbs, by rw [← he]; exact hx.trans hb⟩

/-- **A turn preserves the order of the parens.** -/
theorem nests_turn (h : s.Nests f ts) (ho : s.over? = none) (stop : Bool) :
    (s.turn stop).next.Nests f (ts ++ (s.turn stop).offer.toList) := by
  rcases hs : s.stage with m | k | x
  · cases stop with
    | false => exact nests_step h hs
    | true =>
      -- told to stop, the scan leaves its lexer as it is
      have ht : s.turn true = ⟨[], none, [], { s with stage := .stopped .cancelled }⟩ := by
        simp [turn, hs]
      rw [ht]
      exact ⟨h.balance.append rfl, h.ending, fun m' hm' => (by cases hm'), fun hx => by cases hx⟩
  · have ht : s.turn stop = s.stopTurn k := by simp [turn, hs]
    rw [ht]
    refine ⟨h.balance.append ?_, ?_, fun m' hm' => (by cases hm'), fun hx => by cases hx⟩
    · simp only [stopTurn]
      split <;> rfl
    · rw [← h.ending]
      show Feed.Ending.bytes (Reader.ending _) = Feed.Ending.bytes (Reader.ending _)
      unfold Reader.ending
      cases hl : s.lexer.reader.leftover <;> simp [stopTurn, Lexer.takeFailure,
        Reader.takeFailure, hl]
  · simp [over?, hs] at ho

/-- An error is offered by a step. -/
theorem running_of_error {t : Token} (ht : (s.turn stop).offer = some t) (he : t.kind = .error) :
    ∃ m, s.stage = .running m ∧ (s.lexer.step m).1.token = some t := by
  unfold turn at ht
  split at ht
  · next m hm =>
    split at ht
    · cases ht
    · exact ⟨m, hm, ht⟩
  · next k hk =>
    simp only [stopTurn] at ht
    split at ht
    · obtain rfl := Option.some.inj ht
      cases he
    · cases ht
  · cases ht

/-- A halt is logged of a scan that has stopped. -/
theorem stopped_of_finished {h : Halt} {d : Nat} (he : .finished h d ∈ (s.turn stop).events) :
    s.stage = .stopped h ∧ d = s.lexer.depth := by
  unfold Turn.events turn at he
  split at he
  · next m hm =>
    split at he
    · cases he
    · simp only [stepTurn, List.mem_append, Option.mem_toList, Option.map_eq_some_iff] at he
      rcases he with ((⟨_, _, hx⟩ | ⟨_, _, hx⟩) | hx)
      · cases hx
      · cases hx
      · split at hx
        · simp at hx
        · cases hx
  · next k hk =>
    simp only [stopTurn, List.mem_append, Option.mem_toList, Option.map_eq_some_iff,
      List.mem_singleton] at he
    rcases he with ⟨_, _, hx⟩ | hx
    · cases hx
    · obtain ⟨rfl, rfl⟩ := Event.finished.inj hx
      exact ⟨hk, rfl⟩
  · cases he

end Scan

namespace Round

variable {σ : Type} {sink : Sink σ} {r k : Round σ} {f : Feed}

/-- **So do the rounds of a run.** The induction is on the rounds. -/
theorem nests_of_reaches (h : r.scan.Nests f r.emitted) (hk : r.Reaches sink k) :
    k.scan.Nests f k.emitted := by
  induction hk with
  | refl => exact h
  | tail _ hn ih =>
    rw [emitted_next? hn]
    obtain ⟨ho, st, -, rfl⟩ := next?_eq_some.1 hn
    exact Scan.nests_turn ih ho _

/-- **The order that every round keeps**: the depth is that of the tokens emitted so far, the lexer
stands before what its mode awaits, the modes that take a token get one, errors come up between
tokens, and only a text at its end, with all parens closed, is exhausted. -/
structure Ordered (r : Round σ) : Prop where
  balance : Token.Balance r.emitted r.scan.lexer.depth
  awaits : ∀ m, r.scan.stage = .running m → r.scan.lexer.Awaits m
  takes : ∀ m, r.scan.stage = .running m → m ≠ .text → m ≠ .insideParen →
    ∃ t k, t.kind ≠ .error ∧ (r.scan.lexer.step m).1 = ⟨some t, .proceed k⟩
  errors : ∀ m t, r.scan.stage = .running m → (r.scan.lexer.step m).1.token = some t →
    t.kind = .error → t.text ≠ "Unexpected )" ∧
      (m = .text ∧ r.scan.lexer.depth = 0 ∨ m = .insideParen ∧ 0 < r.scan.lexer.depth)
  exhausted : r.scan.stage = .stopped .exhausted →
    r.scan.lexer.depth = 0 ∧ r.scan.lexer.reader.leftover = some []

theorem ordered_of_nests (h : r.scan.Nests f r.emitted) : r.Ordered := by
  refine ⟨h.balance, fun m hs => (h.running m hs).1, fun m hs h1 h2 => ?_, fun m t hs ht he => ?_,
    fun hs => ?_⟩
  · have hc := Lexer.step_cases (h.running m hs).1 (h.running m hs).2
    have hb : m ≠ r.scan.lexer.between := fun hb =>
      (Lexer.eq_between hb).elim (fun h => h1 h.1) fun h => h2 h.1
    generalize (r.scan.lexer.step m).1 = o at hc
    cases hc with
    | choose k hk => exact absurd hk (not_or.2 ⟨h1, h2⟩)
    | take t k ht => exact ⟨t, k, ht, rfl⟩
    | fail o hm _ => exact absurd hm hb
    | exhausted hm => exact absurd hm hb
  · have hc := Lexer.step_cases (h.running m hs).1 (h.running m hs).2
    generalize (r.scan.lexer.step m).1 = o at hc ht
    cases hc with
    | choose k hk => cases ht
    | take t' k hk =>
      obtain rfl := Option.some.inj ht
      exact absurd he hk
    | fail o hm ho =>
      obtain rfl := Option.some.inj ht
      exact ⟨fun hx => ho (LexError.message_eq_closeParen.1 hx), Lexer.eq_between hm⟩
    | exhausted hm => cases ht
  · obtain ⟨h1, h2, -⟩ := h.exhausted hs
    exact ⟨h1, h2⟩

end Round

/-- **The nesting is in order in every round of a run**, whatever the feed, the settings and the
sink. So no close paren is ever reported as unexpected, errors arise at the top level and inside of
parens but nowhere else, and a run that reports its input exhausted has every paren closed and no
bytes left that make no character. -/
theorem nesting_reached {σ : Type} {f : Feed} (h : f.delivered.length ≤ counterMax)
    (settings : Settings) (sink : Sink σ) (st : σ) :
    let first := Round.start st (Scan.ofFeed f settings)
    let run := (Scan.ofFeed f settings).run sink st
    (∀ r, first.Reaches sink r → r.rest sink = run ∧ r.Ordered) ∧
    (∀ t ∈ run.offered, t.kind = .error → t.text ≠ "Unexpected )" ∧
      ∃ r m, first.Reaches sink r ∧ r.scan.stage = .running m ∧
        (r.scan.lexer.step m).1.token = some t ∧
        (m = .text ∧ r.scan.lexer.depth = 0 ∨ m = .insideParen ∧ 0 < r.scan.lexer.depth)) ∧
    ∀ d, .finished .exhausted d ∈ run.log.toList →
      d = 0 ∧ f.delivered = Utf8.encode f.chars := by
  intro first run
  have hn : ∀ r, first.Reaches sink r → r.scan.Nests f r.emitted := fun r hr =>
    Round.nests_of_reaches (r := first) (Scan.nests_ofFeed settings h) hr
  refine ⟨fun r hr => ⟨Round.rest_of_reaches hr, Round.ordered_of_nests (hn r hr)⟩,
    fun t ht he => ?_, fun d hd => ?_⟩
  · obtain ⟨r, hr, ho⟩ := Round.exists_round_of_offered ht
    obtain ⟨m, hm, htok⟩ := Scan.running_of_error ho he
    obtain ⟨h1, h2⟩ := (Round.ordered_of_nests (hn r hr)).errors m t hm htok he
    exact ⟨h1, r, m, hr, hm, htok, h2⟩
  · rcases Round.mem_log_run hd with hx | ⟨r, hr, hx⟩
    · cases hx
    · obtain ⟨hs, rfl⟩ := Scan.stopped_of_finished hx
      obtain ⟨h1, -, hb⟩ := (hn r hr).exhausted hs
      obtain ⟨after, hda, -, ha⟩ := f.delivered_eq
      exact ⟨h1, by rw [hda, ha hb, List.append_nil]⟩

/-- A close paren too many, which the top level has no use for. -/
theorem nesting_reached_closeParen :
    let f := Feed.ofItems [.bytes [0x28, 0x61, 0x29, 0x29]]
    let t : Token := ⟨.error, "Unexpected sequence: 29", ⟨1, 3, 3⟩⟩
    f.delivered.length ≤ counterMax ∧ ∃ r m,
      (Round.start #[] (Scan.ofFeed f .default)).Reaches Sink.keeping r ∧
        (r.scan.lexer.step m).1.token = some t ∧ r.scan.lexer.Awaits m ∧
          Token.Balance r.emitted r.scan.lexer.depth := by
  intro f t
  have h : f.delivered.length ≤ counterMax := by decide
  have ht : t ∈ ((Scan.ofFeed f .default).run Sink.keeping #[]).offered := by decide +kernel
  obtain ⟨h1, h2, -⟩ := nesting_reached h .default Sink.keeping #[]
  obtain ⟨-, r, m, hr, hm, htok, -⟩ := h2 t ht rfl
  have ho := (h1 r hr).2
  exact ⟨h, r, m, hr, htok, ho.awaits m hm, ho.balance⟩

end ParenLex
