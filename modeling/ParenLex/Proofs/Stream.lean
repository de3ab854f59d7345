import ParenLex.Proofs.Refusal
import ParenLex.Proofs.Schedule

/-!
# Streams

A stream is the consumer's side of a pipeline. It is held against the run that keeps every token in
memory, over the same feed and with the same settings.

* `stream_run`: a consumer that goes on to the end receives the tokens of that run, and the result
  is the same.
* `stream_left`: one that leaves early receives the first of them, and the scan is refused the next
  token that it sends.
-/

namespace ParenLex.Pipeline

variable {f : Feed} {limit : Option Nat} {p : Pipeline} {ms : List Move} {ts : List Token}

/-- What the run that keeps every token in memory comes to. -/
theorem run_keeping (settings : Settings) (hs : f.stops = false) :
    ((Scan.ofFeed f settings).run .keeping #[]).sink.toList = (Scan.ofFeed f settings).offers ∧
      ((Scan.ofFeed f settings).run .keeping #[]).result = (Scan.ofFeed f settings).outcome := by
  have hn : (Scan.ofFeed f settings).lexer.view.ending.stops = false := by
    rw [Scan.ending_ofFeed, f.stops_ending, hs]
  obtain ⟨h1, h2, -⟩ := Scan.runFrom_accepting (Scan.ofFeed f settings) #[] 0 #[.started]
    Sink.accepting_keeping hn
  refine ⟨?_, h2⟩
  rw [Scan.run, h1]
  simp [Sink.keeping]

/-- It is refused nothing. -/
theorem result_keeping (f : Feed) (settings : Settings) :
    ((Scan.ofFeed f settings).run .keeping #[]).result ≠ .error .sinkClosed :=
  Round.result_willing .keeping (.start #[] (.ofFeed f settings)) (by intro h; cases h)

/-- **Whatever the schedule**, the tokens and the result that flow are those of the run in
memory. -/
theorem flows_of_start (settings : Settings) (hs : f.stops = false)
    (h : (start f settings limit false).follow? ms = some (ts, p)) :
    p.Flows ((Scan.ofFeed f settings).run .keeping #[]).sink.toList
        ((Scan.ofFeed f settings).run .keeping #[]).result ts ∧
      p.channel.capacity = settings.capacity ∧ p.limit.map (· + p.tokens.length) = limit := by
  obtain ⟨h1, h2⟩ := run_keeping settings hs
  obtain ⟨hf, hc, hl⟩ := flows_of_follow (flows_start settings limit hs) h
  rw [h1, h2]
  refine ⟨hf, hc, ?_⟩
  rw [tokens, List.length_reverse, hl]
  cases limit <;> rfl

/-- **A stream gives what the run in memory gives**, however its two sides move. Whatever the
capacity: the tokens received and then those that wait are the first of the tokens of the run, no
more wait than the channel holds, and while a side has not finished there is a move, of which there
are only so many. When the consumer sees the end it has received all tokens, and the result is that
of the run. -/
theorem stream_run (settings : Settings) (hs : f.stops = false) :
    let run := (Scan.ofFeed f settings).run .keeping #[]
    ∀ ms sent p, (start f settings none false).follow? ms = some (sent, p) →
      p.tokens ++ p.channel.queue <+: run.sink.toList ∧
      (∀ n, settings.capacity = some n → p.channel.queue.length ≤ n) ∧
      (¬ p.Done → ∃ m q, p.move? m = some q) ∧
      ms.length ≤ (start f settings none false).budget ∧
      (p.left = true → p.tokens = run.sink.toList ∧ p.result? = some run.result) := by
  intro run ms sent p h
  obtain ⟨hf, hc, hl⟩ := flows_of_start settings hs h
  refine ⟨hf.tokens_prefix.trans hf.owes.passed_prefix, fun n hn => hf.bounded n (hc.trans hn),
    exists_move hf, length_le_of_follow h, fun hleft => hf.tokens_of_ended ?_ hleft⟩
  -- without a limit the consumer does not leave before the end
  by_contra hr
  have hlim := (hf.gone (by simpa using hr)).2.1
  simp [hlim] at hl

/-- A stream with room for one token, over a feed whose last read fails. -/
theorem stream_run_failed_read :
    let f := Feed.ofItems [.bytes [0x28, 0x61], .failure ⟨.connectionReset, "reset"⟩]
    let settings := Settings.default.withCapacity 1
    let ms : List Move := [.turn, .turn, .send, .turn, .turn, .receive, .send, .turn, .receive,
      .send, .turn, .turn, .receive, .receive]
    f.stops = false ∧ ∃ sent p, (start f settings none false).follow? ms = some (sent, p) ∧
      p.left = true ∧
      p.tokens = [⟨.openParen, "(", ⟨1, 0, 0⟩⟩, ⟨.identifier, "a", ⟨1, 1, 1⟩⟩,
        .error "Unexpected EOF" ⟨1, 2, 2⟩] ∧
      p.result? = some (.error (.read ⟨.connectionReset, "reset"⟩)) := by
  intro f settings ms
  have hs : f.stops = false := by decide
  have hl : ((start f settings none false).follow? ms).map (·.2.left) = some true := by
    decide +kernel
  obtain ⟨⟨sent, p⟩, h, hl⟩ := Option.map_eq_some_iff.1 hl
  obtain ⟨-, -, -, -, he⟩ := stream_run settings hs ms sent p h
  obtain ⟨ht, hr⟩ := he hl
  exact ⟨hs, sent, p, h, hl, ht.trans (by decide +kernel), hr.trans (by decide +kernel)⟩

/-! ### Consumers that leave -/

/-- No more tokens are sent than the consumer takes and the channel holds. -/
theorem Flows.length_le {all : List Token} {res : Except ScanError Unit} {c : Nat}
    (hf : p.Flows all res ts) (hc : p.channel.capacity = some c) :
    ts.length ≤ p.tokens.length + c := by
  cases hr : p.channel.receiving with
  | true =>
    rw [(hf.waits hr).1, List.length_append]
    exact Nat.add_le_add_left (hf.bounded c hc) _
  | false =>
    obtain ⟨-, -, -, lost, hts, hlost⟩ := hf.gone hr
    rw [hts, List.length_append]
    exact Nat.add_le_add_left (hlost c hc) _

/-- A consumer that wants `k` tokens has the first `k` when it has left. -/
theorem Flows.tokens_of_left {all : List Token} {res : Except ScanError Unit} {k : Nat}
    (hf : p.Flows all res ts)
    (hlim : p.limit.map (· + p.tokens.length) = some k) (hl : p.left = true) :
    p.tokens = all.take k := by
  obtain ⟨j, hj, hjk⟩ := Option.map_eq_some_iff.1 hlim
  cases hr : p.channel.receiving with
  | true =>
    -- it has seen the end, so there were no more than it wanted
    obtain ⟨hall, -⟩ := hf.tokens_of_ended hr hl
    rw [List.take_of_length_le (by rw [← hall]; omega), hall]
  | false =>
    -- it wanted no more
    have h0 := (hf.gone hr).2.1
    obtain rfl : 0 = j := Option.some.inj (h0.symm.trans hj)
    rw [List.prefix_iff_eq_take.1 hf.received_prefix, ← hjk, Nat.zero_add]

/-- A refusal is the end of the producer. -/
theorem follow_refused {t : Token} {s : Scan} {q : Pipeline} (hp : p.producer = .offering t s)
    (hc : (p.channel.emit t).1 = .closed) (h : p.follow? (.send :: ms) = some (ts, q)) :
    q.result? = some (.error .sinkClosed) ∧ ts = [] ∧ ∀ m ∈ ms, m ≠ .send ∧ m ≠ .handOver := by
  obtain ⟨k, us, hm, hk, rfl⟩ := follow?_cons.1 h
  have hsend : k = p.finish (.error .sinkClosed) := by
    rw [move?, send, hp] at hm
    dsimp only at hm
    rw [← Prod.mk.eta (p := p.channel.emit t), hc] at hm
    exact (Option.some.inj hm).symm
  obtain ⟨h1, h2, h3⟩ := follow_finished (r := .error .sinkClosed) (by rw [hsend]; rfl) hk
  refine ⟨by rw [result?, h1], ?_, h3⟩
  simp [passes, hp, hc, h2]

/-- **Leaving a stream stops the scan.** The consumer leaves at some time after it has received `k`
tokens, or at the end if there are fewer. It has then received the first `k` of the tokens of the
run in memory. A scan that is refused a token sends no other. When the scan has ended, it has either
sent all tokens and has the result of the run, or it has been refused one. No more tokens are sent
than the consumer takes and the channel holds, so where there are more the scan is refused one,
whatever else would have been its result. -/
theorem stream_left (settings : Settings) (k : Nat) (hs : f.stops = false) :
    let run := (Scan.ofFeed f settings).run .keeping #[]
    let all := run.sink.toList
    run.result ≠ .error .sinkClosed ∧
    ∀ ms sent p, (start f settings (some k) false).follow? ms = some (sent, p) →
      sent <+: all ∧ p.tokens <+: all.take k ∧ (p.left = true → p.tokens = all.take k) ∧
      (∀ t s ms' sent' q, p.producer = .offering t s → (p.channel.emit t).1 = .closed →
        p.follow? (.send :: ms') = some (sent', q) →
        q.result? = some (.error .sinkClosed) ∧ sent' = [] ∧
          ∀ m ∈ ms', m ≠ .send ∧ m ≠ .handOver) ∧
      (∀ r, p.result? = some r →
        sent = all ∧ r = run.result ∨ sent ≠ all ∧ r = .error .sinkClosed) ∧
      (∀ c, settings.capacity = some c → sent.length ≤ k + c ∧
        (k + c < all.length → ∀ r, p.result? = some r → r = .error .sinkClosed)) ∧
      (¬ p.Done → ∃ m q, p.move? m = some q) ∧
      ms.length ≤ (start f settings (some k) false).budget := by
  intro run all
  refine ⟨result_keeping f settings, fun ms sent p h => ?_⟩
  obtain ⟨hf, hc, hlim⟩ := flows_of_start settings hs h
  have htake : p.tokens.length ≤ k := by
    obtain ⟨j, -, hj⟩ := Option.map_eq_some_iff.1 hlim
    omega
  have hlen : ∀ c, settings.capacity = some c → sent.length ≤ k + c := fun c hcap =>
    (hf.length_le (hc.trans hcap)).trans (Nat.add_le_add_right htake c)
  have hres : ∀ r, p.result? = some r →
      sent = all ∧ r = run.result ∨ sent ≠ all ∧ r = .error .sinkClosed := fun r hr =>
    (hf.result hr).imp_right fun hn => ⟨hn.1, hn.2.1⟩
  refine ⟨hf.owes.passed_prefix, ?_, hf.tokens_of_left hlim,
    fun t s ms' sent' q => follow_refused, hres, fun c hcap => ⟨hlen c hcap, fun hlt r hr => ?_⟩,
    exists_move hf, length_le_of_follow h⟩
  · rw [List.prefix_iff_eq_take.1 hf.received_prefix]
    exact List.take_prefix_take_left htake
  · rcases hres r hr with ⟨hall, -⟩ | ⟨-, hr⟩
    · -- it cannot have sent them all
      have := hlen c hcap
      rw [hall] at this
      omega
    · exact hr

/-- The consumer takes one of three tokens while another waits; the failed read does not show. -/
theorem stream_left_failed_read :
    let f := Feed.ofItems [.bytes [0x28, 0x61], .failure ⟨.connectionReset, "reset"⟩]
    let settings := Settings.default.withCapacity 1
    let ms : List Move :=
      [.turn, .turn, .send, .turn, .turn, .receive, .send, .turn, .leave, .send]
    f.stops = false ∧ ((Scan.ofFeed f settings).run .keeping #[]).result =
        .error (.read ⟨.connectionReset, "reset"⟩) ∧
      ∃ sent p, (start f settings (some 1) false).follow? ms = some (sent, p) ∧
        p.tokens = [⟨.openParen, "(", ⟨1, 0, 0⟩⟩] ∧ p.result? = some (.error .sinkClosed) := by
  intro f settings ms
  have hs : f.stops = false := by decide
  have hd : ((start f settings (some 1) false).follow? ms).map
      (fun x => (x.2.left, x.2.result?.isSome)) = some (true, true) := by decide +kernel
  obtain ⟨⟨sent, p⟩, h, hd⟩ := Option.map_eq_some_iff.1 hd
  obtain ⟨hl, hr⟩ := Prod.mk.inj hd
  obtain ⟨r, hr⟩ := Option.isSome_iff_exists.1 hr
  obtain ⟨-, hall⟩ := stream_left settings 1 hs
  obtain ⟨-, -, ht, -, -, hc, -⟩ := hall ms sent p h
  have hmore : 1 + 1 < ((Scan.ofFeed f settings).run .keeping #[]).sink.toList.length := by
    decide +kernel
  have hclosed := (hc 1 rfl).2 hmore r hr
  refine ⟨hs, by decide +kernel, sent, p, h, (ht hl).trans (by decide +kernel), ?_⟩
  rw [hr, hclosed]

end ParenLex.Pipeline
