import ParenLex.Proofs.Coverage
import ParenLex.Proofs.Stream

/-!
# Scans that share a channel

What a scan does to a channel that others use as well, be it run from its beginning to its end with
nothing in between, or move by move.

* `Channel.scan_cases`: what comes of a scan into a channel.
* `Pipeline.shares_of_goes`: what a move does to the channel.
-/

namespace ParenLex

/-! ### Scans into a channel -/

namespace Channel

variable {ch : Channel} {text : String} {ts : List Token}

/-- Tokens that a channel all takes are the last in its queue. -/
theorem push_all (h : Channel.sink.accepted ch ts = ts) :
    ts.foldl Channel.sink.push ch = { ch with queue := ch.queue ++ ts } ∧
      (ch.Bounded → { ch with queue := ch.queue ++ ts }.Bounded) ∧
      (ts ≠ [] → ch.receiving = true) := by
  induction ts generalizing ch with
  | nil => simp
  | cons t ts ih =>
    by_cases ha : Channel.sink.accepts ch t = true
    · rw [Sink.accepted_of_pos ha] at h
      have hsent : (ch.emit t).1 = .sent := by simpa [Channel.sink] using ha
      rcases ch.emit_cases t with ⟨-, he⟩ | ⟨-, -, he⟩ | ⟨hr, hroom, he⟩ | ⟨-, -, he⟩
      · rw [he] at hsent
        cases hsent
      · rw [he] at hsent
        cases hsent
      · have hpush : Channel.sink.push ch t = { ch with queue := ch.queue ++ [t] } := by
          show (ch.emit t).2 = _
          rw [he]
        rw [hpush] at h
        obtain ⟨h1, h2, -⟩ := ih (List.cons.inj h).2
        rw [List.append_assoc, List.singleton_append] at h1 h2
        rw [List.foldl_cons, hpush]
        exact ⟨h1, fun _ => h2 (bounded_push hroom t), fun _ => hr⟩
      · rw [he] at hsent
        cases hsent
    · rw [Sink.accepted_of_neg ha] at h
      cases h

/-- A text makes at least one token. -/
theorem tokenize_ne_nil (h : text.utf8ByteSize ≤ counterMax) : tokenize text ≠ [] := by
  rw [(tokenize_eq h).2, Munch.tokens]
  exact List.append_ne_nil_of_right_ne_nil _ Munch.closing_ne_nil

/-- The scan of a text that nobody breaks off. -/
theorem offers_ofText (h : text.utf8ByteSize ≤ counterMax) :
    (Scan.ofFeed (.ofText text) .default).lexer.view.ending.stops = false ∧
      (Scan.ofFeed (.ofText text) .default).outcome = .ok () ∧
      (Scan.ofFeed (.ofText text) .default).offers = tokenize text := by
  have hstops : (Feed.ofText text).stops = false := rfl
  obtain ⟨h1, h2⟩ := Pipeline.run_keeping .default hstops
  refine ⟨by rw [Scan.ending_ofFeed, Feed.stops_ending, hstops], ?_, h1.symm⟩
  have hok := (tokenize_eq h).1
  rw [← h2]
  unfold tokenize? scanText at hok
  generalize (Scan.run Sink.keeping #[] (.ofFeed (.ofText text) .default)).result = r at hok ⊢
  cases r with
  | error e => cases hok
  | ok u => rfl

/-- The run of a scan into a channel, against the one that nobody breaks off. -/
theorem keeps_ofText (ch : Channel) (h : text.utf8ByteSize ≤ counterMax) :
    (Round.start ch (Scan.ofFeed (.ofText text) .default)).Keeps Channel.sink (tokenize text) ∧
      ((Scan.ofFeed (.ofText text) .default).run Channel.sink.willing ch).result = .ok () := by
  have hacc : Channel.sink.willing.Accepting := ⟨fun _ _ => rfl, fun _ _ => rfl⟩
  obtain ⟨hstops, hout, hoff⟩ := offers_ofText h
  obtain ⟨ts, hk⟩ := Round.exists_keeps Channel.sink
    (Round.start ch (Scan.ofFeed (.ofText text) .default))
  have hts : ts = tokenize text := by
    have h1 := hk.offered
    have h2 := (Scan.offered_accepting (Scan.ofFeed (.ofText text) .default) ch hacc hstops).1
    rw [← hoff, ← h2]
    exact h1.symm
  rw [hts] at hk
  refine ⟨hk, ?_⟩
  rw [← hout]
  exact (Scan.runFrom_accepting _ ch 0 #[.started] hacc hstops).2.1

/-- A scan whose tokens all go in ends as if nobody could have broken it off. -/
theorem run_of_all (h : text.utf8ByteSize ≤ counterMax)
    (hall : Channel.sink.accepted ch (tokenize text) = tokenize text) :
    let run := (Scan.ofFeed (.ofText text) .default).run Channel.sink ch
    run.result = .ok () ∧ run.sink = { ch with queue := ch.queue ++ tokenize text } := by
  obtain ⟨hk, hok⟩ := keeps_ofText ch h
  refine ⟨(congrArg Run.result (hk.all hall)).trans hok, ?_⟩
  rw [← (push_all hall).1]
  refine hk.kept.trans ?_
  show (Channel.sink.accepted ch (tokenize text)).foldl _ _ = _
  rw [hall]
  rfl

/-- A scan of whose tokens one is refused ends with the refusal. -/
theorem run_of_refused (h : text.utf8ByteSize ≤ counterMax)
    (hall : Channel.sink.accepted ch (tokenize text) ≠ tokenize text) :
    ((Scan.ofFeed (.ofText text) .default).run Channel.sink ch).result = .error .sinkClosed := by
  obtain ⟨rest, hrest⟩ := Channel.sink.accepted_prefix ch (tokenize text)
  have hne : rest ≠ [] := by
    rintro rfl
    rw [List.append_nil] at hrest
    exact hall hrest
  obtain ⟨t, rest, rfl⟩ := List.exists_cons_of_ne_nil hne
  exact ((keeps_ofText ch h).1.refused t rest hrest.symm).2

/-- A scan of a text comes to nothing where there is no receiver. -/
theorem run_of_closed (h : text.utf8ByteSize ≤ counterMax) (hr : ch.receiving = false) :
    ((Scan.ofFeed (.ofText text) .default).run Channel.sink ch).result = .error .sinkClosed := by
  apply run_of_refused h
  intro hall
  rw [(push_all hall).2.2 (tokenize_ne_nil h)] at hr
  cases hr

/-- **What comes of a scan into a channel**: its tokens are the last in the queue, nobody is there to
take them, or there is no room for them. -/
theorem scan_cases (ch : Channel) (h : text.utf8ByteSize ≤ counterMax) :
    ch.senders = 0 ∧ ch.scan text = (.noSender, ch) ∨
    ch.senders ≠ 0 ∧ ch.receiving = false ∧ ch.scan text = (.closed, ch) ∨
    ch.receiving = true ∧
      ch.scan text = (.sent, { ch with queue := ch.queue ++ tokenize text }) ∧
      (ch.Bounded → { ch with queue := ch.queue ++ tokenize text }.Bounded) ∨
    ch.receiving = true ∧ ch.scan text = (.full, ch) := by
  by_cases hs : ch.senders = 0
  · exact .inl ⟨hs, if_pos hs⟩
  have hclone : ch.cloneSender = { ch with senders := ch.senders + 1 } := if_neg hs
  by_cases hall : Channel.sink.accepted { ch with senders := ch.senders + 1 } (tokenize text) =
      tokenize text
  · obtain ⟨hres, hsink⟩ := run_of_all h hall
    obtain ⟨-, hbound, hr⟩ := push_all hall
    have hscan : ch.scan text = (.sent, { ch with queue := ch.queue ++ tokenize text }) := by
      simp only [scan, if_neg hs, hclone, hres, hsink]
      rfl
    exact .inr (.inr (.inl ⟨hr (tokenize_ne_nil h), hscan, hbound⟩))
  · have hres := run_of_refused h hall
    have hscan : ch.scan text = (if ch.receiving then .full else .closed, ch) := by
      simp only [scan, if_neg hs, hclone, hres]
    cases hr : ch.receiving with
    | false => exact .inr (.inl ⟨hs, rfl, by rw [hscan, hr]; rfl⟩)
    | true => exact .inr (.inr (.inr ⟨rfl, by rw [hscan, hr]; rfl⟩))

/-- A scan without a receiver ends with the channel as it was. -/
theorem scan_of_gone (h : text.utf8ByteSize ≤ counterMax) (hs : ch.senders ≠ 0)
    (hr : ch.receiving = false) : ch.scan text = (.closed, ch) := by
  rcases ch.scan_cases h with ⟨h0, -⟩ | ⟨-, -, he⟩ | ⟨hn, -⟩ | ⟨hn, -⟩
  · exact absurd h0 hs
  · exact he
  · rw [hr] at hn
    cases hn
  · rw [hr] at hn
    cases hn

end Channel

/-! ### Moves of one scan among others -/

namespace Pipeline

variable {p q : Pipeline} {us : List Token}

/-- **What a scan does to a channel that it shares.** The tokens that leave its hands are received or
are the last in the queue, and its sender is there until it has ended. -/
structure Shares (p : Pipeline) (us : List Token) (q : Pipeline) : Prop where
  receiving : q.channel.receiving = p.channel.receiving
  capacity : q.channel.capacity = p.channel.capacity
  bounded : p.channel.Bounded → q.channel.Bounded
  flows : p.channel.Bounded → p.channel.receiving = true →
    q.tokens ++ q.channel.queue = p.tokens ++ p.channel.queue ++ us
  closed : p.channel.receiving = false → us = []
  senders : ∀ n, p.channel.senders = n + (if p.result?.isNone then 1 else 0) →
    q.channel.senders = n + (if q.result?.isNone then 1 else 0)

/-- A change of the producer alone. -/
theorem shares_producer {pr : Producer} (hp : p.result? = none)
    (hq : { p with producer := pr }.result? = none) : p.Shares [] { p with producer := pr } := by
  refine ⟨rfl, rfl, id, fun _ _ => (List.append_nil _).symm, fun _ => rfl, ?_⟩
  rw [hp, hq]
  exact fun _ hn => hn

/-- The end of the producer, with which its sender goes. -/
theorem shares_finish (hp : p.result? = none) (r : Except ScanError Unit) :
    p.Shares [] (p.finish r) := by
  refine ⟨rfl, rfl, id, fun _ _ => (List.append_nil _).symm, fun _ => rfl, ?_⟩
  rw [hp]
  intro n hn
  have hn : p.channel.senders = n + 1 := hn
  show p.channel.senders - 1 = n
  omega

/-- **Every move does no more to the channel**, for a scan that is not the receiver's own. -/
theorem shares_of_goes (hlimit : p.limit = none) (hleft : p.left = !p.channel.receiving)
    (hg : p.Goes us q) : p.Shares us q := by
  cases hg with
  | leave _ hlim =>
    rw [hlimit] at hlim
    cases hlim
  | receive t ts hw hr hq =>
    refine ⟨rfl, rfl, fun hb => Channel.bounded_pop hb hq, fun _ _ => ?_, fun _ => rfl,
      fun _ hn => hn⟩
    show (p.take t).tokens ++ ts = _
    rw [tokens_take, hq, List.append_assoc, List.append_nil, List.singleton_append]
  | ended =>
    exact ⟨rfl, rfl, id, fun _ _ => (List.append_nil _).symm, fun _ => rfl, fun _ hn => hn⟩
  | handOver t s hp hw hc =>
    have hres : p.result? = none := by simp [result?, hp]
    refine ⟨rfl, rfl, id, fun hb _ => ?_, fun hr => ?_, ?_⟩
    · -- nothing can wait in a channel of this capacity
      have hq : p.channel.queue = [] := List.length_eq_zero_iff.1 (Nat.le_zero.1 (hb 0 hc))
      show (p.take t).tokens ++ p.channel.queue = _
      rw [tokens_take, hq, List.append_nil, List.append_nil]
    · rw [(wants_iff.1 hw).1, hr] at hleft
      cases hleft
    · rw [hres]
      exact fun _ hn => hn
  | sent t s hp hr hroom =>
    have hres : p.result? = none := by simp [result?, hp]
    refine ⟨rfl, rfl, fun _ => Channel.bounded_push hroom t, fun _ _ => ?_, fun hn => ?_, ?_⟩
    · exact (List.append_assoc _ _ _).symm
    · rw [hr] at hn
      cases hn
    · rw [hres]
      exact fun _ hn => hn
  | refused t s hp => exact shares_finish (by simp [result?, hp]) _
  | ends s r hp => exact shares_finish (by simp [result?, hp]) r
  | offer s t hp => exact shares_producer (by simp [result?, hp]) rfl
  | turn s hp => exact shares_producer (by simp [result?, hp]) rfl

end Pipeline

end ParenLex
