import ParenLex.Proofs.Closing
import ParenLex.Proofs.Counters

/-!
# The order of the log

The log of a run grows turn by turn. A turn that steps adds what it has met: a failed read, the token
that it has made, and the mode that it goes on to. So the log tells of the steps in their order, and
of the one failed read that there may be.

* `Reader.failsAtEnd_of_moves`: a failed read strikes behind all characters of the feed.
* `Round.Recorded`: the order of a log without a finish.
* `Round.inOrder_next`: a turn adds to a log in order and leaves it in order.
-/

namespace ParenLex

/-! ### Failures -/

namespace Reader

variable {r k : Reader} {f : Feed} {past : List Char} {x : ReadFailure}

theorem failure_backup (r : Reader) : r.backup.failure = r.failure := by
  unfold backup
  split
  · rfl
  · rfl

/-- A reader that has met a failure asks its feed for nothing more, and keeps the failure. -/
theorem failure_next (hd : r.DrawnFrom f) (hx : r.failure = some x) :
    r.next.2.failure = some x := by
  unfold next
  split
  · exact hx
  · unfold fetch
    split
    · exact hx
    · next hl =>
      obtain ⟨hn, -⟩ := hd.reading hl
      rw [hn] at hx
      cases hx

theorem failure_of_moves (hd : r.DrawnFrom f) (hx : r.failure = some x) (hm : r.Moves k) :
    k.failure = some x := by
  induction hm with
  | refl => exact hx
  | next hm ih => exact failure_next (drawn_of_moves hd hm) ih
  | backup _ ih =>
    rw [failure_backup]
    exact ih

/-- Every failure recorded was met behind all the characters. -/
def FailsAtEnd (r : Reader) (cs : List Char) : Prop :=
  ∀ x, r.failure = some x → x.offset = byteSize cs

theorem failsAtEnd_next (ha : r.Along f.chars past) (hd : r.DrawnFrom f)
    (hx : r.FailsAtEnd f.chars) : r.next.2.FailsAtEnd f.chars := by
  unfold next
  split
  · exact hx
  · next hs =>
    unfold fetch
    split
    · exact hx
    · next hl =>
      split
      · exact hx
      · next bytes e g hg =>
        -- no character is ahead, so all of them have been handed out
        have hslot : r.slot.ahead = [] := by
          cases hc : r.slot with
          | empty => rfl
          | taken c => rfl
          | putBack c => exact absurd hc (hs c)
        have hall : f.chars = past := by
          rw [ha.chars, ahead, hslot, hl]
          simp [Feed.chars_of_ended hg]
        intro x hfail
        obtain ⟨hn, -⟩ := hd.reading hl
        rw [hn, Option.or_none] at hfail
        obtain ⟨e', -, rfl⟩ := Option.map_eq_some_iff.1 hfail
        rw [hall]
        exact ha.offset

/-- **A failed read strikes behind all characters of the feed.** -/
theorem failsAtEnd_of_moves (ha : r.Along f.chars past) (hd : r.DrawnFrom f)
    (hx : r.FailsAtEnd f.chars) (hm : r.Moves k) : k.FailsAtEnd f.chars := by
  induction hm with
  | refl => exact hx
  | next hm ih =>
    obtain ⟨past, ha⟩ := along_of_moves ha hm
    exact failsAtEnd_next ha (drawn_of_moves hd hm) ih
  | backup _ ih =>
    unfold FailsAtEnd
    rw [failure_backup]
    exact ih

/-- A reader that has met a failure has handed out all characters. -/
theorem offset_of_failure (ha : r.Along f.chars past) (hd : r.DrawnFrom f)
    (hx : r.failure = some x) : r.offset = byteSize f.chars := by
  have hl : r.leftover ≠ none := by
    intro hl
    obtain ⟨hn, -⟩ := hd.reading hl
    rw [hn] at hx
    cases hx
  rw [ha.offset, ha.chars, ahead_of_leftover hd hl, List.append_nil]

end Reader

/-! ### Events -/

/-- **Moves that follow one another** from a mode to a mode. -/
def Mode.Leads (m : Mode) : List (Mode × Mode) → Mode → Prop
  | [], n => n = m
  | (a, b) :: moves, n => a = m ∧ b.Leads moves n

theorem Mode.Leads.concat {a b n : Mode} {moves : List (Mode × Mode)} (h : a.Leads moves b) :
    a.Leads (moves ++ [(b, n)]) n := by
  induction moves generalizing a with
  | nil =>
    obtain rfl : b = a := h
    exact ⟨rfl, rfl⟩
  | cons move moves ih => exact ⟨h.1, ih h.2⟩

/-- Where something stands in a list that is made of two. -/
theorem split_append {α : Type} {xs ys before after : List α} {a : α}
    (h : xs ++ ys = before ++ a :: after) : (∃ rest, xs = before ++ a :: rest) ∨
      ∃ inner, ys = inner ++ a :: after ∧ before = xs ++ inner := by
  rcases List.append_eq_append_iff.1 h with ⟨inner, hb, hy⟩ | ⟨inner, hx, hy⟩
  · exact .inr ⟨inner, hy, hb⟩
  · rcases inner with _ | ⟨b, inner⟩
    · rw [List.append_nil] at hx
      exact .inr ⟨[], hy.symm, by rw [hx, List.append_nil]⟩
    · obtain ⟨rfl, -⟩ := List.cons.inj hy
      exact .inl ⟨inner, hx⟩

namespace Scan.Event

/-- What an event shows of a token. -/
def shown? (e : Event) : Option String := e.token?.map Token.display

/-- The failed read that an event warns of. -/
def warning? : Event → Option ReadFailure
  | warned x => some x
  | _ => none

/-- The modes that an event leads from and to. -/
def move? : Event → Option (Mode × Mode)
  | moved m n => some (m, n)
  | _ => none

end Scan.Event

namespace Round

open Scan (Event)

variable {σ : Type} {sink : Sink σ} {first r k : Round σ} {f : Feed} {st : σ} {settings : Settings}
  {m n : Mode} {log : List Event} {w x y : Option ReadFailure}

/-- What a step logs before its move: the failed read that it met, and the token that it made. -/
def stepEvents (w : Option ReadFailure) (t : Option Token) : List Event :=
  (w.map Event.warned).toList ++ (t.map .emitted).toList

/-- **A move is logged in its step**: in the round that steps from `m` to `n`, after the token of that
step, if it makes one. -/
def MovesAfter (sink : Sink σ) (first : Round σ) (log : List Event) (m n : Mode) : Prop :=
  ∃ r w, first.Reaches sink r ∧ r.scan.stage = .running m ∧
    (r.scan.lexer.step m).1.next = .proceed n ∧
      log = r.log.toList ++ stepEvents w (r.scan.lexer.step m).1.token

/-- **The order of a log** that has come to mode `m`, with the failed read `w` met so far. -/
structure Sequence (sink : Sink σ) (first : Round σ) (log : List Event) (w : Option ReadFailure)
    (m : Mode) : Prop where
  started : ∃ events, log = .started :: events ∧ .started ∉ events
  leads : Mode.Leads .text (log.filterMap Event.move?) m
  warnings : log.filterMap Event.warning? = w.toList
  moves : ∀ before a b after, log = before ++ .moved a b :: after →
    MovesAfter sink first before a b

/-- The order of a log without a finish. -/
structure Recorded (sink : Sink σ) (first : Round σ) (log : List Event) (w : Option ReadFailure)
    (m : Mode) : Prop extends Sequence sink first log w m where
  unfinished : ∀ e ∈ log, e.halt? = none

/-- Events that begin no scan and move nowhere may be added, if they warn of no more than one failed
read. -/
theorem Sequence.append {events : List Event} (h : Sequence sink first log w m)
    (hq : ∀ e ∈ events, e ≠ .started ∧ e.move? = none)
    (hw : w.toList ++ events.filterMap Event.warning? = x.toList) :
    Sequence sink first (log ++ events) x m := by
  have hmove : events.filterMap Event.move? = [] :=
    List.filterMap_eq_nil_iff.2 fun e he => (hq e he).2
  obtain ⟨es, hlog, hes⟩ := h.started
  refine ⟨⟨es ++ events, by rw [hlog]; rfl, ?_⟩, ?_, ?_, ?_⟩
  · intro hm
    rcases List.mem_append.1 hm with hm | hm
    · exact hes hm
    · exact (hq _ hm).1 rfl
  · rw [List.filterMap_append, hmove, List.append_nil]
    exact h.leads
  · rw [List.filterMap_append, h.warnings, hw]
  · intro before a b after hs
    rcases split_append hs with ⟨rest, hl⟩ | ⟨inner, hl, -⟩
    · exact h.moves before a b rest hl
    · have hmem : .moved a b ∈ events := by simp [hl]
      have := (hq _ hmem).2
      cases this

/-- So may what a step logs before its move. -/
theorem Recorded.stepEvents (h : Recorded sink first log w m) (hw : w.toList ++ y.toList = x.toList)
    (t : Option Token) : Recorded sink first (log ++ stepEvents y t) x m := by
  have hq : ∀ e ∈ Round.stepEvents y t, e ≠ .started ∧ e.move? = none ∧ e.halt? = none := by
    intro e he
    simp only [Round.stepEvents, List.mem_append, Option.mem_toList, Option.map_eq_some_iff] at he
    rcases he with ⟨_, -, rfl⟩ | ⟨_, -, rfl⟩
    · exact ⟨by simp, rfl, rfl⟩
    · exact ⟨by simp, rfl, rfl⟩
  refine ⟨h.append (fun e he => ⟨(hq e he).1, (hq e he).2.1⟩) ?_, ?_⟩
  · rw [← hw]
    cases y <;> cases t <;> rfl
  · intro e he
    rcases List.mem_append.1 he with he | he
    · exact h.unfinished e he
    · exact (hq e he).2.2

/-- So may the finish. -/
theorem Recorded.finish (h : Recorded sink first log w m) (k : Halt) (d : Nat) :
    Sequence sink first (log ++ [.finished k d]) w m := by
  apply h.append
  · intro e he
    rw [List.mem_singleton.1 he]
    exact ⟨by simp, rfl⟩
  · exact List.append_nil _

/-- A move from the mode that the log has come to may be added. -/
theorem Recorded.move (h : Recorded sink first log w m) (hm : MovesAfter sink first log m n) :
    Recorded sink first (log ++ [.moved m n]) w n := by
  obtain ⟨es, hlog, hes⟩ := h.started
  refine ⟨⟨⟨es ++ [.moved m n], by rw [hlog]; rfl, by simp [hes]⟩, ?_, ?_, ?_⟩, ?_⟩
  · rw [List.filterMap_append]
    exact h.leads.concat
  · rw [List.filterMap_append, h.warnings]
    exact List.append_nil _
  · intro before a b after hs
    rcases split_append hs with ⟨rest, hl⟩ | ⟨inner, hl, hb⟩
    · exact h.moves before a b rest hl
    · rcases inner with _ | ⟨e, inner⟩
      · obtain ⟨he, -⟩ := List.cons.inj hl
        obtain ⟨rfl, rfl⟩ := Event.moved.inj he
        rw [hb, List.append_nil]
        exact hm
      · simp at hl
  · intro e he
    rcases List.mem_append.1 he with he | he
    · exact h.unfinished e he
    · rw [List.mem_singleton.1 he]
      rfl

/-! ### Rounds -/

/-- What a turn that steps logs. -/
theorem turn_events (hs : r.scan.stage = .running m) (ha : r.asked sink = false) :
    (r.turn sink).before = Round.stepEvents
        (Scan.metFailure r.scan.lexer (r.scan.lexer.step m).2) (r.scan.lexer.step m).1.token ∧
      (r.turn sink).after =
        match (r.scan.lexer.step m).1.next with | .proceed n => [.moved m n] | _ => [] := by
  simp only [turn, ha, Scan.turn, hs]
  exact ⟨rfl, rfl⟩

/-- The failed read that a step meets is the first. -/
theorem metFailure_append {ts : List Token} (h : r.scan.Open f ts) (m : Mode) :
    r.scan.lexer.reader.failure.toList ++
        (Scan.metFailure r.scan.lexer (r.scan.lexer.step m).2).toList =
      (r.scan.lexer.step m).2.reader.failure.toList := by
  unfold Scan.metFailure
  cases hx : r.scan.lexer.reader.failure with
  | none => rfl
  | some x =>
    rw [Reader.failure_of_moves h.drawn hx (r.scan.lexer.moves_step m)]
    rfl

/-- The log of a round whose scan is open, and what its reader has met. -/
structure InOrder (sink : Sink σ) (first : Round σ) (f : Feed) (r : Round σ) : Prop where
  recorded : ∃ m, Recorded sink first r.log.toList r.scan.lexer.reader.failure m ∧
    ∀ n, r.scan.stage = .running n → n = m
  failsAtEnd : r.scan.lexer.reader.FailsAtEnd f.chars

theorem inOrder_start (sink : Sink σ) (st : σ) (settings : Settings) (f : Feed) :
    InOrder sink (start st (Scan.ofFeed f settings)) f (start st (Scan.ofFeed f settings)) := by
  refine ⟨⟨.text, ⟨⟨⟨[], rfl, by simp⟩, rfl, rfl, ?_⟩, by simp [start, Event.halt?]⟩, ?_⟩, ?_⟩
  · intro before a b after hs
    rcases before with _ | ⟨e, before⟩
    · cases (List.cons.inj hs).1
    · simp [start] at hs
  · intro n hn
    exact (Stage.running.inj hn).symm
  · intro x hx
    cases hx

/-- Up to its offer a turn that steps logs in order. -/
theorem InOrder.before (h : InOrder sink first f r) (ho : r.scan.Open f r.emitted)
    (hs : r.scan.stage = .running m) (ha : r.asked sink = false) :
    Recorded sink first (r.log.toList ++ (r.turn sink).before)
        (r.scan.lexer.step m).2.reader.failure m ∧
      (r.scan.lexer.step m).2.reader.FailsAtEnd f.chars := by
  obtain ⟨⟨n, hrec, hmode⟩, hend⟩ := h
  obtain rfl := hmode m hs
  obtain ⟨past, hp⟩ := Lexer.along_of_reached ho.reached
  rw [(turn_events hs ha).1]
  exact ⟨hrec.stepEvents (metFailure_append ho m) _,
    Reader.failsAtEnd_of_moves hp ho.drawn hend (r.scan.lexer.moves_step m)⟩

/-- **A turn adds to a log in order and leaves it in order.** -/
theorem inOrder_next (h : InOrder sink first f r) (hr : first.Reaches sink r)
    (ho : r.scan.Open f r.emitted) (hn : r.next? sink = some k) (hk : k.scan.over? = none) :
    InOrder sink first f k := by
  obtain ⟨m, hs⟩ := running_of_next? hn hk
  obtain ⟨-, hscan, hlog, -⟩ := next_eq hn
  have hlog : k.log.toList = r.log.toList ++ (r.turn sink).before ++ (r.turn sink).after := by
    rw [hlog]
    simp
  cases ha : r.asked sink with
  | true =>
    rw [turn_asked hs ha] at hscan hlog
    obtain ⟨⟨n, hrec, -⟩, hend⟩ := h
    refine ⟨⟨n, ?_, ?_⟩, ?_⟩
    · rw [hlog, hscan, List.append_nil, List.append_nil]
      exact hrec
    · intro n hn
      rw [hscan] at hn
      cases hn
    · rw [hscan]
      exact hend
  | false =>
    obtain ⟨hrec, hend⟩ := h.before ho hs ha
    obtain ⟨-, hnext⟩ := turn_unasked hs ha
    obtain ⟨hbefore, hafter⟩ := turn_events (r := r) hs ha
    have hlexer : k.scan.lexer = (r.scan.lexer.step m).2 := by rw [hscan, hnext]
    have hstage : k.scan.stage = Scan.stageAfter (r.scan.lexer.step m).1.next := by
      rw [hscan, hnext]
    rw [hafter] at hlog
    refine ⟨?_, by rw [hlexer]; exact hend⟩
    rw [hlexer]
    cases hx : (r.scan.lexer.step m).1.next with
    | proceed n =>
      rw [hx] at hlog hstage
      refine ⟨n, ?_, ?_⟩
      · rw [hlog]
        apply hrec.move
        exact ⟨r, _, hr, hs, hx, congrArg (r.log.toList ++ ·) hbefore⟩
      · intro n' hn'
        exact (Stage.running.inj (hstage.symm.trans hn')).symm
    | halt y =>
      rw [hx] at hlog hstage
      refine ⟨m, ?_, ?_⟩
      · rw [hlog, List.append_nil]
        exact hrec
      · intro n' hn'
        rw [hstage] at hn'
        cases hn'
    | fault e => exact absurd hx (ho.no_fault hs e)

/-- **So the log is in order in every round** whose scan is not over. -/
theorem inOrder_of_reaches (h : f.delivered.length ≤ counterMax)
    (hr : (start st (Scan.ofFeed f settings)).Reaches sink r) (ho : r.scan.over? = none) :
    InOrder sink (start st (Scan.ofFeed f settings)) f r := by
  induction hr with
  | refl => exact inOrder_start sink st settings f
  | tail hj hn ih =>
    have hover := (next?_eq_some.1 hn).1
    exact inOrder_next (ih hover) hj (open_of_reaches h hj hover) hn ho

end Round

end ParenLex
