import ParenLex.Proofs.Rounds

/-!
# Sinks that refuse

A sink that accepts everything is offered all tokens of a scan. Any other sees the first of these,
up to the first that it refuses; nothing is offered after that, and the refusal is the result,
whatever the scan has met before.

* `exists_keeps`: the run with a sink against the run with one that accepts everything.
* `refusal`: what is offered, what is kept and what results.
-/

namespace ParenLex

variable {σ : Type}

namespace Sink

/-- The sink with its refusals taken away. -/
def willing (sink : Sink σ) : Sink σ := { sink with accepts := fun _ _ => true }

/-- **The tokens that a sink accepts before the first that it refuses.** -/
def accepted (sink : Sink σ) (st : σ) : List Token → List Token
  | [] => []
  | t :: ts => if sink.accepts st t then t :: sink.accepted (sink.push st t) ts else []

/-- Keeps `n` tokens and is closed after them. -/
def closing (n : Nat) (stops : Nat → Array Token → Bool) : Sink (Array Token) :=
  ⟨fun kept _ => kept.size < n, .push, stops⟩

variable {sink : Sink σ} {st : σ} {t : Token} {ts : List Token}

theorem accepted_of_pos (h : sink.accepts st t = true) :
    sink.accepted st (t :: ts) = t :: sink.accepted (sink.push st t) ts := if_pos h

theorem accepted_of_neg (h : ¬ sink.accepts st t = true) : sink.accepted st (t :: ts) = [] :=
  if_neg h

theorem accepted_prefix (sink : Sink σ) (st : σ) (ts : List Token) :
    sink.accepted st ts <+: ts := by
  fun_induction accepted sink st ts with
  | case1 => exact List.prefix_refl _
  | case2 st t ts h ih => exact List.cons_prefix_cons.2 ⟨rfl, ih⟩
  | case3 st t ts h => exact List.nil_prefix

/-- The first token that is not accepted is refused. -/
theorem not_accepts {rest : List Token} (h : ts = sink.accepted st ts ++ t :: rest) :
    ¬ sink.accepts ((sink.accepted st ts).foldl sink.push st) t = true := by
  fun_induction accepted sink st ts with
  | case1 => cases h
  | case2 st u ts hu ih => exact ih (List.cons.inj h).2
  | case3 st u ts hu =>
    obtain ⟨rfl, -⟩ := List.cons.inj h
    exact hu

theorem accepted_closing (n : Nat) (stops : Nat → Array Token → Bool) (kept : Array Token)
    (ts : List Token) : (closing n stops).accepted kept ts = ts.take (n - kept.size) := by
  induction ts generalizing kept with
  | nil => simp [accepted]
  | cons t ts ih =>
    by_cases h : kept.size < n
    · have hk : n - kept.size = n - (kept.push t).size + 1 := by simp; omega
      rw [accepted_of_pos (by simpa [closing] using h), hk, List.take_succ_cons]
      exact congrArg (t :: ·) (ih (kept.push t))
    · have hk : n - kept.size = 0 := by omega
      rw [accepted_of_neg (by simpa [closing] using h), hk, List.take_zero]

/-- An offer that is taken comes first among the tokens accepted. -/
theorem accepted_of_take? {o : Option Token} {st' : σ} (h : sink.take? st o = some st') :
    st' = o.toList.foldl sink.push st ∧
      ∀ ts, sink.accepted st (o.toList ++ ts) = o.toList ++ sink.accepted st' ts := by
  cases o with
  | none =>
    obtain rfl := Option.some.inj h
    exact ⟨rfl, fun ts => rfl⟩
  | some t =>
    rw [take?] at h
    split at h
    · next ha =>
      obtain rfl := Option.some.inj h
      exact ⟨rfl, fun ts => accepted_of_pos ha⟩
    · cases h

/-- Only a token is refused. -/
theorem refused_of_take? {o : Option Token} (h : sink.take? st o = none) :
    ∃ t, o = some t ∧ ¬ sink.accepts st t = true := by
  cases o with
  | none => cases h
  | some t =>
    rw [take?] at h
    split at h
    · cases h
    · next ha => exact ⟨t, rfl, ha⟩

end Sink

/-- A scan that nobody broke off does not result in a refusal. -/
theorem Scan.result_ne (s : Scan) : s.result ≠ .error .sinkClosed := by
  unfold result
  split <;> simp

/-- No turn has a refusal for its result. -/
theorem Scan.over_turn {s : Scan} (stop : Bool) (h : s.over? = none) :
    (s.turn stop).next.over? ≠ some (.error .sinkClosed) := by
  unfold turn
  split
  · split
    · simp [over?]
    · simp only [stepTurn, over?]
      cases (s.lexer.step _).1.next <;> simp [stageAfter]
  · intro hx
    exact s.result_ne (Option.some.inj hx)
  · next x hx => simp [over?, hx] at h

namespace Round

variable {sink : Sink σ} {r k : Round σ} {ts : List Token}

/-- A sink that accepts everything goes on while there are turns. -/
theorem exists_next? (sink : Sink σ) (h : r.scan.over? = none) :
    ∃ k, r.next? sink.willing = some k := by
  have ht : ∃ st, sink.willing.take? r.sink (r.turn sink.willing).offer = some st := by
    cases (r.turn sink.willing).offer with
    | none => exact ⟨_, rfl⟩
    | some t => exact ⟨_, rfl⟩
  obtain ⟨st, ht⟩ := ht
  exact ⟨_, next?_eq_some.2 ⟨h, st, ht, rfl⟩⟩

/-- The two sinks go the same way until a token is refused. -/
theorem next?_willing (h : r.next? sink = some k) : r.next? sink.willing = some k := by
  obtain ⟨ho, st, ht, rfl⟩ := next?_eq_some.1 h
  obtain ⟨rfl, -⟩ := Sink.accepted_of_take? ht
  refine next?_eq_some.2 ⟨ho, _, ?_, rfl⟩
  show sink.willing.take? r.sink (r.turn sink).offer = _
  cases (r.turn sink).offer <;> rfl

/-- **The run with a sink against the run with one that accepts everything**, which is offered `ts`
from here on. -/
structure Keeps (sink : Sink σ) (r : Round σ) (ts : List Token) : Prop where
  offered : (r.rest sink.willing).offered = r.emitted ++ ts
  willing : (r.rest sink.willing).sink = ts.foldl sink.push r.sink
  kept : (r.rest sink).sink = (sink.accepted r.sink ts).foldl sink.push r.sink
  all : sink.accepted r.sink ts = ts → r.rest sink = r.rest sink.willing
  refused : ∀ t rest, ts = sink.accepted r.sink ts ++ t :: rest →
    (r.rest sink).offered = r.emitted ++ (sink.accepted r.sink ts ++ [t]) ∧
      (r.rest sink).result = .error .sinkClosed

/-- Both runs end with the scan. -/
theorem keeps_over {x : Except ScanError Unit} (h : r.scan.over? = some x) : r.Keeps sink [] := by
  have h1 : r.rest sink = ⟨r.sink, x, r.asked sink, r.log⟩ := Scan.runFrom_over h
  have h2 : r.rest sink.willing = ⟨r.sink, x, r.asked sink, r.log⟩ := Scan.runFrom_over h
  refine ⟨?_, ?_, ?_, fun _ => h1.trans h2.symm, fun t rest he => by cases he⟩
  · rw [h2, List.append_nil]; rfl
  · rw [h2]; rfl
  · rw [h1]; rfl

/-- Both go on while nothing is refused. -/
theorem keeps_next (hn : r.next? sink = some k) (h : k.Keeps sink ts) :
    r.Keeps sink ((r.turn sink).offer.toList ++ ts) := by
  have he := emitted_next? hn
  have h1 := rest_next? hn
  have h2 := rest_next? (next?_willing hn)
  obtain ⟨-, st, ht, hk⟩ := next?_eq_some.1 hn
  obtain ⟨hs, hacc⟩ := Sink.accepted_of_take? ht
  have hs : k.sink = (r.turn sink).offer.toList.foldl sink.push r.sink := by rw [hk]; exact hs
  have hacc : sink.accepted r.sink ((r.turn sink).offer.toList ++ ts) =
      (r.turn sink).offer.toList ++ sink.accepted k.sink ts := by rw [hk]; exact hacc ts
  refine ⟨?_, ?_, ?_, fun ha => ?_, fun t rest ha => ?_⟩
  · rw [h2, h.offered, he, List.append_assoc]
  · rw [h2, h.willing, hs, List.foldl_append]
  · rw [h1, h.kept, hacc, hs, List.foldl_append]
  · rw [hacc] at ha
    rw [h1, h2, h.all (List.append_cancel_left ha)]
  · rw [hacc, List.append_assoc] at ha
    obtain ⟨h3, h4⟩ := h.refused t rest (List.append_cancel_left ha)
    rw [h1, h3, he, hacc, List.append_assoc, List.append_assoc]
    exact ⟨rfl, h4⟩

/-- A refusal ends the one and leaves the other going. -/
theorem keeps_refused (ho : r.scan.over? = none) (hn : r.next? sink = none)
    (hk : r.next? sink.willing = some k) (h : k.Keeps sink ts) :
    r.Keeps sink ((r.turn sink).offer.toList ++ ts) := by
  have he := emitted_next? hk
  have h1 := rest_refused ho hn
  have h2 := rest_next? hk
  have hs : (r.turn sink).Shows := Scan.shows_turn _ _
  obtain ⟨t, ht, hacc⟩ : ∃ t, (r.turn sink).offer = some t ∧ ¬ sink.accepts r.sink t = true := by
    rw [next?, ho] at hn
    exact Sink.refused_of_take? (Option.map_eq_none_iff.1 hn)
  have hsink : k.sink = sink.push r.sink t := by
    obtain ⟨-, st, hst, rfl⟩ := next?_eq_some.1 hk
    change sink.willing.take? r.sink (r.turn sink).offer = some st at hst
    rw [ht] at hst
    exact (Option.some.inj hst).symm
  have he : k.emitted = r.emitted ++ [t] := by
    change k.emitted = r.emitted ++ (r.turn sink).offer.toList at he
    rw [he, ht]; rfl
  -- the sink that refuses keeps nothing more, and the other one goes on with the token
  rw [ht]
  have hnil : sink.accepted r.sink ((some t).toList ++ ts) = [] := Sink.accepted_of_neg hacc
  refine ⟨?_, ?_, ?_, fun ha => ?_, fun u rest ha => ?_⟩
  · rw [h2, h.offered, he, List.append_assoc]; rfl
  · rw [h2, h.willing, hsink]; rfl
  · rw [h1, hnil]; rfl
  · rw [hnil] at ha; cases ha
  · rw [hnil] at ha ⊢
    obtain ⟨rfl, -⟩ := List.cons.inj ha
    refine ⟨?_, by rw [h1]⟩
    rw [h1, Run.offered, Array.toList_appendList, List.filterMap_append, hs.before, ht]
    rfl

/-- **Every run is the beginning of the one that nobody refuses.** The induction is on the rounds of
the latter. -/
theorem exists_keeps (sink : Sink σ) (r : Round σ) : ∃ ts, r.Keeps sink ts := by
  cases ho : r.scan.over? with
  | some x => exact ⟨[], keeps_over ho⟩
  | none =>
    obtain ⟨k, hk⟩ := exists_next? sink ho
    obtain ⟨ts, h⟩ := exists_keeps sink k
    refine ⟨(r.turn sink).offer.toList ++ ts, ?_⟩
    cases hn : r.next? sink with
    | none => exact keeps_refused ho hn hk h
    | some k' =>
      obtain rfl := Option.some.inj ((next?_willing hn).symm.trans hk)
      exact keeps_next hn h
termination_by r.scan.budget
decreasing_by
  obtain ⟨-, st, -, rfl⟩ := next?_eq_some.1 hk
  exact Scan.budget_turn _ ho

/-- A run that nobody refuses does not end with a refusal. -/
theorem result_willing (sink : Sink σ) (r : Round σ)
    (h : r.scan.over? ≠ some (.error .sinkClosed)) :
    (r.rest sink.willing).result ≠ .error .sinkClosed := by
  cases ho : r.scan.over? with
  | some x =>
    rw [rest, Scan.runFrom_over ho]
    exact fun hx => h (ho.trans (congrArg some hx))
  | none =>
    obtain ⟨k, hk⟩ := exists_next? sink ho
    rw [rest_next? hk]
    refine result_willing sink k ?_
    obtain ⟨-, st, -, rfl⟩ := next?_eq_some.1 hk
    exact Scan.over_turn _ ho
termination_by r.scan.budget
decreasing_by
  obtain ⟨-, st, -, rfl⟩ := next?_eq_some.1 hk
  exact Scan.budget_turn _ ho

end Round

/-- **A sink sees the first tokens of a scan, and its first refusal ends the scan.** Whatever the feed
and the settings, and whenever a stop is asked for: the tokens that a sink accepts are the first of
those that are offered to one that accepts everything. If they are all of them, the two runs are the
same. If the next one is refused, it is the last that is offered, and the result is the refusal,
even where a read has failed before. So a sink that is closed after `n` tokens gives a refusal just
when there are more. -/
theorem refusal {σ : Type} (f : Feed) (settings : Settings) (sink : Sink σ) (st : σ) :
    (let all := (Scan.ofFeed f settings).run sink.willing st
      let run := (Scan.ofFeed f settings).run sink st
      let kept := sink.accepted st all.offered
      all.sink = all.offered.foldl sink.push st ∧
      kept <+: all.offered ∧ run.sink = kept.foldl sink.push st ∧
      (kept = all.offered → run = all) ∧
      ∀ t rest, all.offered = kept ++ t :: rest →
        ¬ sink.accepts run.sink t = true ∧ run.offered = kept ++ [t] ∧
          run.result = .error .sinkClosed) ∧
    ∀ n stops, ((Scan.ofFeed f settings).run (.closing n stops) #[]).result = .error .sinkClosed ↔
      n < ((Scan.ofFeed f settings).run (Sink.closing n stops).willing #[]).offered.length := by
  refine ⟨?_, fun n stops => ?_⟩
  · obtain ⟨ts, h⟩ := Round.exists_keeps sink (Round.start st (Scan.ofFeed f settings))
    have ho : ((Scan.ofFeed f settings).run sink.willing st).offered = ts := h.offered
    have hk : ((Scan.ofFeed f settings).run sink st).sink = _ := h.kept
    dsimp only
    rw [ho, hk]
    exact ⟨h.willing, sink.accepted_prefix st ts, rfl, h.all, fun t rest he =>
      ⟨Sink.not_accepts he, h.refused t rest he⟩⟩
  · obtain ⟨ts, h⟩ := Round.exists_keeps (.closing n stops)
      (Round.start #[] (Scan.ofFeed f settings))
    have ho : ((Scan.ofFeed f settings).run (Sink.closing n stops).willing #[]).offered = ts :=
      h.offered
    have hacc : (Sink.closing n stops).accepted #[] ts = ts.take n := Sink.accepted_closing _ _ _ _
    rw [ho]
    constructor
    · intro hr
      by_contra hn
      have hrun := h.all (hacc.trans (List.take_of_length_le (by omega)))
      refine Round.result_willing (.closing n stops)
        (Round.start #[] (Scan.ofFeed f settings)) (by simp [Round.start, Scan.ofFeed, Scan.over?]) ?_
      rw [← hrun]
      exact hr
    · intro hn
      refine (h.refused ts[n] (ts.drop (n + 1)) ?_).2
      rw [show (Sink.closing n stops).accepted (Round.start #[] _).sink ts = _ from hacc,
        ← List.drop_eq_getElem_cons hn, List.take_append_drop]

/-- A sink closed after one token, where a failed read has been met before the second is refused. -/
theorem refusal_failed_read :
    let f := Feed.ofItems [.bytes [0x28, 0x61], .failure ⟨.connectionReset, "reset"⟩]
    let sink := Sink.closing 1 fun _ _ => false
    let all := (Scan.ofFeed f .default).run sink.willing #[]
    let run := (Scan.ofFeed f .default).run sink #[]
    let t : Token := ⟨.openParen, "(", ⟨1, 0, 0⟩⟩
    let u : Token := ⟨.identifier, "a", ⟨1, 1, 1⟩⟩
    (all.result = .error (.read ⟨.connectionReset, "reset"⟩) ∧
      all.offered = sink.accepted #[] all.offered ++ [u, .error "Unexpected EOF" ⟨1, 2, 2⟩] ∧
      1 < all.offered.length) ∧
    run.sink = #[t] ∧ run.offered = [t, u] ∧ run.result = .error .sinkClosed := by
  intro f sink all run t u
  have h1 : all.result = .error (.read ⟨.connectionReset, "reset"⟩) := by decide +kernel
  have h2 : sink.accepted #[] all.offered = [t] := by decide +kernel
  have h3 : all.offered = [t] ++ [u, .error "Unexpected EOF" ⟨1, 2, 2⟩] := by decide +kernel
  have hl : 1 < all.offered.length := by rw [h3]; decide
  have he : all.offered =
      sink.accepted #[] all.offered ++ [u, .error "Unexpected EOF" ⟨1, 2, 2⟩] := by
    rw [h2]
    exact h3
  obtain ⟨⟨-, -, hk, -, hr⟩, hc⟩ := refusal f .default sink #[]
  obtain ⟨-, h4, -⟩ := hr u _ he
  refine ⟨⟨h1, he, hl⟩, ?_, ?_, (hc 1 fun _ _ => false).2 hl⟩
  · exact hk.trans (congrArg (·.foldl sink.push #[]) h2)
  · exact h4.trans (congrArg (· ++ [u]) h2)

end ParenLex
