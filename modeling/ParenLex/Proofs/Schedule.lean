import ParenLex.Pipeline
import ParenLex.Proofs.Tokens

/-!
# Schedules of a pipeline

A schedule is an order in which the two sides of a pipeline move. Whatever the schedule, the tokens
that have left the scan's hands are the first of those it has to offer: they have been received,
they wait in the channel, or they were lost with the receiver.

* `owes_of_goes`, `flows_of_goes`, `flows_of_follow`: what a move, and so a schedule, preserves.
* `exists_move`: where no move is possible, both sides have finished.
* `length_le_of_follow`: no schedule goes on for ever.
-/

namespace ParenLex.Pipeline

/-- **Moves a pipeline by a schedule**, if it allows for it: the tokens that have left the scan's
hands on the way, and the pipeline then. -/
def follow? (p : Pipeline) : List Move → Option (List Token × Pipeline)
  | [] => some ([], p)
  | m :: ms =>
    match p.move? m with
    | some q => (q.follow? ms).map fun (ts, r) => (p.passes m ++ ts, r)
    | none => none

variable {p q : Pipeline} {m : Move} {ms : List Move} {ts us : List Token}

theorem follow?_cons : p.follow? (m :: ms) = some (ts, q) ↔
    ∃ r us, p.move? m = some r ∧ r.follow? ms = some (us, q) ∧ ts = p.passes m ++ us := by
  simp only [follow?]
  cases p.move? m with
  | none => simp
  | some r =>
    simp only [Option.map_eq_some_iff, Prod.mk.injEq, Prod.exists]
    constructor
    · rintro ⟨us, k, hk, rfl, rfl⟩
      exact ⟨r, us, rfl, hk, rfl⟩
    · rintro ⟨k, us, hk, hf, rfl⟩
      obtain rfl := Option.some.inj hk
      exact ⟨us, q, hf, rfl, rfl⟩

/-- **No schedule goes on for ever**: it has no more moves than the budget. -/
theorem length_le_of_follow (h : p.follow? ms = some (ts, q)) : ms.length ≤ p.budget := by
  induction ms generalizing p ts with
  | nil => exact Nat.zero_le _
  | cons m ms ih =>
    obtain ⟨r, us, hm, hf, -⟩ := follow?_cons.1 h
    have h1 := budget_of_move hm
    have h2 := ih hf
    rw [List.length_cons]
    omega

/-! ### What moves preserve -/

/-- **What no move changes**: the capacity, and the number of tokens the consumer wants in all. -/
theorem kept_of_goes (h : p.Goes us q) : q.channel.capacity = p.channel.capacity ∧
    q.limit.map (· + q.received.length) = p.limit.map (· + p.received.length) := by
  -- a token taken is one more received and one less wanted
  have htake (hw : p.wants = true) (t : Token) :
      (p.limit.map (· - 1)).map (· + (t :: p.received).length) =
        p.limit.map (· + p.received.length) := by
    have hl := (wants_iff.1 hw).2
    cases hk : p.limit with
    | none => rfl
    | some k =>
      have : k ≠ 0 := fun h0 => hl (by rw [hk, h0])
      simp only [Option.map_some, Option.some.injEq, List.length_cons]
      omega
  cases h with
  | receive t ts hw => exact ⟨rfl, htake hw t⟩
  | handOver t s hp hw => exact ⟨rfl, htake hw t⟩
  | _ => exact ⟨rfl, rfl⟩

/-- What a producer still owes, of all tokens and the result, when the tokens `ts` have left its
hands. One that has finished owes nothing: it is through, or it was refused a token. -/
def Owes (all : List Token) (res : Except ScanError Unit) (ts : List Token) (receiving : Bool) :
    Producer → Prop
  | .scanning s => s.lexer.view.ending.stops = false ∧ s.outcome = res ∧ all = ts ++ s.offers
  | .offering t s =>
    s.lexer.view.ending.stops = false ∧ s.outcome = res ∧ all = ts ++ t :: s.offers
  | .finished r => (r = res ∧ ts = all) ∨
      (r = .error .sinkClosed ∧ receiving = false ∧ ∃ t us, all = ts ++ t :: us)

variable {all : List Token} {res : Except ScanError Unit} {b : Bool} {pr : Producer}

/-- What a producer owes does not become more when the receiver goes. -/
theorem Owes.gone (h : Owes all res ts b pr) : Owes all res ts false pr := by
  cases pr with
  | scanning s => exact h
  | offering t s => exact h
  | finished r => exact h.imp_right fun hr => ⟨hr.1, rfl, hr.2.2⟩

/-- The tokens that have left a producer's hands are the first of all. -/
theorem Owes.passed_prefix (h : Owes all res ts b pr) : ts <+: all := by
  cases pr with
  | scanning s => exact ⟨_, h.2.2.symm⟩
  | offering t s => exact ⟨_, h.2.2.symm⟩
  | finished r =>
    -- a token that was refused is still among all of them, after those that got through
    rcases h with ⟨-, rfl⟩ | ⟨-, -, t, us, h⟩
    · exact List.prefix_refl _
    · exact ⟨_, h.symm⟩

/-- A producer that has finished is through with all tokens, or was refused one. -/
theorem Owes.result {r : Except ScanError Unit} (h : Owes all res ts b (.finished r)) :
    ts = all ∧ r = res ∨ ts ≠ all ∧ r = .error .sinkClosed ∧ b = false := by
  rcases h with ⟨hr, hts⟩ | ⟨hr, hb, t, us, hall⟩
  · exact .inl ⟨hts, hr⟩
  · refine .inr ⟨fun hts => ?_, hr, hb⟩
    simp [hts] at hall

/-- A turn settles the token that it offers, and leaves the rest due. -/
theorem Owes.turn {s : Scan} (h : Owes all res ts b (.scanning s)) (hu : p.stop = false)
    (hov : s.over? = none) : (p.stop || s.stopPassed) = false ∧
      (s.turn false).next.lexer.view.ending.stops = false ∧ (s.turn false).next.outcome = res ∧
      all = ts ++ ((s.turn false).offer.toList ++ (s.turn false).next.offers) := by
  obtain ⟨hs, hres, hall⟩ := h
  refine ⟨by rw [hu, Scan.stopPassed_of_stops hs]; rfl, (s.stops_turn _).trans hs, ?_, ?_⟩
  · rw [← hres, Scan.outcome_eq hov]
  · rw [hall, Scan.offers_eq hov]

/-- **A move settles what leaves the scan's hands in it**, one case for each thing that a move can
do. -/
theorem owes_of_goes (hu : p.stop = false) (ho : Owes all res ts p.channel.receiving p.producer)
    (hg : p.Goes us q) : Owes all res (ts ++ us) q.channel.receiving q.producer := by
  -- only a token handed over or sent leaves the scan's hands; in the other cases `us` is empty
  cases hg with
  | leave =>
    rw [List.append_nil]
    exact ho.gone
  | receive =>
    rw [List.append_nil]
    exact ho
  | ended =>
    rw [List.append_nil]
    exact ho
  | handOver t s hp =>
    rw [hp] at ho
    obtain ⟨hs, hres, hall⟩ := ho
    exact ⟨hs, hres, by simp [hall]⟩
  | sent t s hp =>
    rw [hp] at ho
    obtain ⟨hs, hres, hall⟩ := ho
    exact ⟨hs, hres, by simp [hall]⟩
  | refused t s hp hr =>
    rw [List.append_nil]
    rw [hp] at ho
    exact .inr ⟨rfl, hr, t, s.offers, ho.2.2⟩
  | ends s r hp hov =>
    rw [List.append_nil]
    rw [hp] at ho
    obtain ⟨-, hres, hall⟩ := ho
    rw [Scan.offers, Scan.course_over hov, List.filterMap_nil, List.append_nil] at hall
    rw [Scan.outcome_over hov] at hres
    exact .inl ⟨hres, hall.symm⟩
  | offer s t hp hov ht =>
    rw [List.append_nil]
    rw [hp] at ho
    obtain ⟨hstop, hs, hres, hall⟩ := ho.turn hu hov
    rw [hstop] at ht ⊢
    rw [ht] at hall
    exact ⟨hs, hres, hall⟩
  | turn s hp hov ht =>
    rw [List.append_nil]
    rw [hp] at ho
    obtain ⟨hstop, hs, hres, hall⟩ := ho.turn hu hov
    rw [hstop] at ht ⊢
    rw [ht] at hall
    exact ⟨hs, hres, hall⟩

/-- **The flow of the tokens**, when `ts` have left the scan's hands. As long as there is a
receiver, they have been received or wait in the channel. What waited when it went is lost, and so
no more than the channel holds. -/
structure Flows (all : List Token) (res : Except ScanError Unit) (ts : List Token) (p : Pipeline) :
    Prop where
  unasked : p.stop = false
  owes : Owes all res ts p.channel.receiving p.producer
  senders : p.channel.senders = if p.result?.isSome then 0 else 1
  bounded : p.channel.Bounded
  waits : p.channel.receiving = true → ts = p.tokens ++ p.channel.queue ∧
    (p.left = true → p.channel.queue = [] ∧ p.channel.senders = 0)
  gone : p.channel.receiving = false → p.left = true ∧ p.limit = some 0 ∧ p.channel.queue = [] ∧
    ∃ lost, ts = p.tokens ++ lost ∧ ∀ c, p.channel.capacity = some c → lost.length ≤ c

/-- Where the consumer has not left, there is a receiver. -/
theorem Flows.receiving (h : p.Flows all res ts) (hl : p.left = false) :
    p.channel.receiving = true := by
  by_contra hr
  simp [(h.gone (by simpa using hr)).1] at hl

@[simp] theorem tokens_take (p : Pipeline) (t : Token) : (p.take t).tokens = p.tokens ++ [t] := by
  simp [take, tokens]

/-- The producer goes on, without a token leaving its hands. -/
theorem Flows.goesOn (hf : p.Flows all res ts) (hp : p.result? = none)
    (hq : { p with producer := pr }.result? = none) (ho : Owes all res ts p.channel.receiving pr) :
    { p with producer := pr }.Flows all res ts := by
  refine { hf with owes := ho, senders := ?_ }
  rw [hq, ← hp]
  exact hf.senders

/-- The producer ends, and with it the last sender. -/
theorem Flows.finish {r : Except ScanError Unit} (hf : p.Flows all res ts) (hp : p.result? = none)
    (ho : Owes all res ts p.channel.receiving (.finished r)) : (p.finish r).Flows all res ts := by
  have hs : p.channel.senders = 1 := by simpa [hp] using hf.senders
  have h0 : (p.finish r).channel.senders = 0 := by simp [Pipeline.finish, Channel.dropSender, hs]
  refine { hf with owes := ho, senders := h0, waits := fun hr => ?_ }
  obtain ⟨hw, hl⟩ := hf.waits hr
  exact ⟨hw, fun h => ⟨(hl h).1, h0⟩⟩

/-- The consumer leaves, and what waits for it is lost. -/
theorem Flows.leave (hf : p.Flows all res ts) (hl : p.left = false) (hlim : p.limit = some 0) :
    { p with left := true, channel := p.channel.dropReceiver }.Flows all res ts := by
  have hr := hf.receiving hl
  obtain ⟨hts, -⟩ := hf.waits hr
  exact ⟨hf.unasked, hf.owes.gone, hf.senders, fun n _ => Nat.zero_le n, fun h => (by cases h),
    fun _ => ⟨rfl, hlim, rfl, p.channel.queue, hts, hf.bounded⟩⟩

/-- The consumer takes the first token that waits. -/
theorem Flows.receive {t : Token} {us : List Token} (hf : p.Flows all res ts)
    (hr : p.channel.receiving = true) (hl : p.left = false) (hq : p.channel.queue = t :: us) :
    { p.take t with channel := { p.channel with queue := us } }.Flows all res ts := by
  obtain ⟨hts, -⟩ := hf.waits hr
  refine ⟨hf.unasked, hf.owes, hf.senders, Channel.bounded_pop hf.bounded hq,
    fun _ => ⟨?_, fun h => Bool.noConfusion (hl.symm.trans h)⟩,
    fun h => Bool.noConfusion (hr.symm.trans h)⟩
  show ts = (p.take t).tokens ++ us
  rw [tokens_take, hts, hq, List.append_assoc, List.singleton_append]

/-- The consumer sees the end. -/
theorem Flows.ended (hf : p.Flows all res ts) (hr : p.channel.receiving = true)
    (hq : p.channel.queue = []) (hs : p.channel.senders = 0) :
    { p with left := true }.Flows all res ts := by
  obtain ⟨hts, -⟩ := hf.waits hr
  exact ⟨hf.unasked, hf.owes, hf.senders, hf.bounded, fun _ => ⟨hts, fun _ => ⟨hq, hs⟩⟩,
    fun h => Bool.noConfusion (hr.symm.trans h)⟩

/-- A token goes from hand to hand. -/
theorem Flows.handOver {t : Token} {s : Scan} (hf : p.Flows all res ts)
    (hp : p.producer = .offering t s) (hl : p.left = false) (hc : p.channel.capacity = some 0)
    (ho : Owes all res (ts ++ [t]) p.channel.receiving (.scanning s)) :
    { p.take t with producer := .scanning s }.Flows all res (ts ++ [t]) := by
  have hr := hf.receiving hl
  obtain ⟨hts, -⟩ := hf.waits hr
  -- nothing can wait in a channel of this capacity
  have hq : p.channel.queue = [] := List.length_eq_zero_iff.1 (Nat.le_zero.1 (hf.bounded 0 hc))
  have hs := hf.senders
  simp only [hp, result?] at hs
  refine ⟨hf.unasked, ho, hs, hf.bounded, fun _ => ⟨?_, fun h => Bool.noConfusion (hl.symm.trans h)⟩,
    fun h => Bool.noConfusion (hr.symm.trans h)⟩
  show ts ++ [t] = (p.take t).tokens ++ p.channel.queue
  rw [tokens_take, hts, hq, List.append_nil, List.append_nil]

/-- A token goes into the channel. -/
theorem Flows.sent {t : Token} {s : Scan} (hf : p.Flows all res ts)
    (hp : p.producer = .offering t s) (hr : p.channel.receiving = true)
    (hroom : p.channel.hasRoom = true)
    (ho : Owes all res (ts ++ [t]) p.channel.receiving (.scanning s)) :
    Flows all res (ts ++ [t]) { p with
      producer := .scanning s
      channel := { p.channel with queue := p.channel.queue ++ [t] } } := by
  obtain ⟨hts, hleft⟩ := hf.waits hr
  have hs := hf.senders
  simp only [hp, result?, Option.isSome_none, Bool.false_eq_true, if_false] at hs
  refine ⟨hf.unasked, ho, hs, Channel.bounded_push hroom t,
    fun _ => ⟨?_, fun h => ?_⟩, fun h => Bool.noConfusion (hr.symm.trans h)⟩
  · show ts ++ [t] = p.tokens ++ (p.channel.queue ++ [t])
    rw [hts, List.append_assoc]
  · -- while the producer stands, the consumer has not seen the end
    have := (hleft h).2
    simp [hs] at this

/-- **What a move preserves**, one case for each thing that a move can do. -/
theorem flows_of_goes (hf : p.Flows all res ts) (hg : p.Goes us q) :
    q.Flows all res (ts ++ us) := by
  have ho := owes_of_goes hf.unasked hf.owes hg
  cases hg with
  | leave hl hlim => simpa using hf.leave hl hlim
  | receive t us hw hr hq => simpa using hf.receive hr (wants_iff.1 hw).1 hq
  | ended hw hr hq hs => simpa using hf.ended hr hq hs
  | handOver t s hp hw hc => exact hf.handOver hp (wants_iff.1 hw).1 hc ho
  | sent t s hp hr hroom => exact hf.sent hp hr hroom ho
  | refused t s hp hr =>
    rw [List.append_nil] at ho ⊢
    exact hf.finish (by simp [result?, hp]) ho
  | ends s r hp hov =>
    rw [List.append_nil] at ho ⊢
    exact hf.finish (by simp [result?, hp]) ho
  | offer s t hp hov ht =>
    rw [List.append_nil] at ho ⊢
    exact hf.goesOn (by simp [result?, hp]) rfl ho
  | turn s hp hov ht =>
    rw [List.append_nil] at ho ⊢
    exact hf.goesOn (by simp [result?, hp]) rfl ho

/-! ### What the flow says -/

/-- The tokens received and those that wait are the first of these. -/
theorem Flows.tokens_prefix (hf : p.Flows all res ts) : p.tokens ++ p.channel.queue <+: ts := by
  cases hr : p.channel.receiving with
  | true => rw [(hf.waits hr).1]
  | false =>
    obtain ⟨-, -, hq, lost, hts, -⟩ := hf.gone hr
    rw [hq, hts, List.append_nil]
    exact List.prefix_append _ _

theorem Flows.received_prefix (hf : p.Flows all res ts) : p.tokens <+: all :=
  ((List.prefix_append _ _).trans hf.tokens_prefix).trans hf.owes.passed_prefix

/-- So it is with the producer of a pipeline. -/
theorem Flows.result {r : Except ScanError Unit} (hf : p.Flows all res ts)
    (h : p.result? = some r) : ts = all ∧ r = res ∨
      ts ≠ all ∧ r = .error .sinkClosed ∧ p.channel.receiving = false := by
  have ho := hf.owes
  cases hp : p.producer with
  | scanning s => simp [result?, hp] at h
  | offering t s => simp [result?, hp] at h
  | finished x =>
    obtain rfl : x = r := by simpa [result?, hp] using h
    rw [hp] at ho
    exact ho.result

/-- A consumer that has seen the end has received everything. -/
theorem Flows.tokens_of_ended (hf : p.Flows all res ts) (hr : p.channel.receiving = true)
    (hl : p.left = true) : p.tokens = all ∧ p.result? = some res := by
  obtain ⟨hts, he⟩ := hf.waits hr
  obtain ⟨hq, hs⟩ := he hl
  have hsend := hf.senders
  -- no sender is left, so the producer has finished, and it was not refused
  cases hres : p.result? with
  | none => simp [hres, hs] at hsend
  | some r =>
    rcases hf.result hres with ⟨hall, rfl⟩ | ⟨-, -, hn⟩
    · exact ⟨by rw [← hall, hts, hq, List.append_nil], rfl⟩
    · simp [hr] at hn

/-! ### What schedules preserve -/

/-- What no schedule changes, with the tokens that leave the scan's hands on the way. -/
theorem flows_of_follow (hf : p.Flows all res us) (h : p.follow? ms = some (ts, q)) :
    q.Flows all res (us ++ ts) ∧ q.channel.capacity = p.channel.capacity ∧
      q.limit.map (· + q.received.length) = p.limit.map (· + p.received.length) := by
  induction ms generalizing p us ts with
  | nil =>
    obtain ⟨rfl, rfl⟩ : [] = ts ∧ p = q := by simpa [follow?] using h
    exact ⟨by simpa using hf, rfl, rfl⟩
  | cons m ms ih =>
    obtain ⟨r, vs, hm, hr, rfl⟩ := follow?_cons.1 h
    have hg := goes_of_move hm
    obtain ⟨h1, h2, h3⟩ := ih (flows_of_goes hf hg) hr
    obtain ⟨hc, hl⟩ := kept_of_goes hg
    exact ⟨by rwa [← List.append_assoc], h2.trans hc, h3.trans hl⟩

/-- At the start every token is still due. -/
theorem flows_start {f : Feed} (settings : Settings) (limit : Option Nat) (hs : f.stops = false) :
    (start f settings limit false).Flows (Scan.ofFeed f settings).offers
      (Scan.ofFeed f settings).outcome [] where
  unasked := rfl
  owes := ⟨by rw [Scan.ending_ofFeed, f.stops_ending, hs], rfl, rfl⟩
  senders := rfl
  bounded := Channel.bounded_new _
  waits _ := ⟨rfl, fun h => by cases h⟩
  gone h := by cases h

/-- A producer that has finished offers nothing any more. -/
theorem follow_finished {r : Except ScanError Unit} (hp : p.producer = .finished r)
    (h : p.follow? ms = some (ts, q)) :
    q.producer = .finished r ∧ ts = [] ∧ ∀ m ∈ ms, m ≠ .send ∧ m ≠ .handOver := by
  induction ms generalizing p ts with
  | nil =>
    obtain ⟨rfl, rfl⟩ : [] = ts ∧ p = q := by simpa [follow?] using h
    exact ⟨hp, rfl, by simp⟩
  | cons m ms ih =>
    obtain ⟨k, us, hm, hk, rfl⟩ := follow?_cons.1 h
    have hne : m ≠ .send ∧ m ≠ .handOver := by
      constructor <;> rintro rfl <;> simp [move?, send, handOver, hp] at hm
    have hpass : p.passes m = [] := by simp [passes, hp]
    -- what is left to move is the consumer, and it does not touch the producer
    have hkp : k.producer = .finished r := by
      have hg := goes_of_move hm
      rw [hpass] at hg
      cases hg with
      | leave => exact hp
      | receive => exact hp
      | ended => exact hp
      | refused t s ho => simp [hp] at ho
      | ends s x ho => simp [hp] at ho
      | offer s t ho => simp [hp] at ho
      | turn s ho => simp [hp] at ho
    obtain ⟨h1, h2, h3⟩ := ih hkp hk
    exact ⟨h1, by rw [hpass, h2, List.append_nil], List.forall_mem_cons.2 ⟨hne, h3⟩⟩

/-! ### Progress -/

/-- Both sides have finished. -/
def Done (p : Pipeline) : Prop := p.left = true ∧ p.result?.isSome = true

/-- A consumer that asks for a token gets one that waits, or the end. -/
theorem exists_receive (hw : p.wants = true) (hr : p.channel.receiving = true)
    (h : p.channel.queue ≠ [] ∨ p.channel.senders = 0) : ∃ q, p.receive = some q := by
  unfold receive
  rcases p.channel.receive_cases with ⟨hn, -⟩ | ⟨t, ts, -, -, he⟩ | ⟨-, -, -, he⟩ | ⟨-, hq, hs, -⟩
  · rw [hr] at hn
    cases hn
  · exact ⟨_, by rw [if_pos hw, he]⟩
  · exact ⟨_, by rw [if_pos hw, he]⟩
  · exact absurd h (not_or.2 ⟨fun hn => hn hq, hs⟩)

/-- A scan can always take a turn, or end. -/
theorem exists_turn {s : Scan} (hp : p.producer = .scanning s) : ∃ q, p.turn = some q := by
  simp only [turn, hp]
  split
  · exact ⟨_, rfl⟩
  · split <;> exact ⟨_, rfl⟩

/-- A consumer that has not left can leave or asks for a token. -/
theorem leave_or_wants (hl : p.left = false) : (∃ q, p.leave = some q) ∨ p.wants = true := by
  cases hw : p.wants with
  | true => exact .inr rfl
  | false => exact .inl (by simp [leave, hl, hw])

/-- **Where no move is possible, both sides have finished.** -/
theorem exists_move (hf : p.Flows all res ts) (h : ¬ p.Done) : ∃ m q, p.move? m = some q := by
  cases hp : p.producer with
  | scanning s => exact ⟨.turn, exists_turn hp⟩
  | finished r =>
    -- the consumer is the one who has not finished, and there is no sender it would wait for
    have hl : p.left = false := by simpa [Done, result?, hp] using h
    have hs : p.channel.senders = 0 := by simpa [result?, hp] using hf.senders
    rcases leave_or_wants hl with hq | hw
    · exact ⟨.leave, hq⟩
    · exact ⟨.receive, exists_receive hw (hf.receiving hl) (.inr hs)⟩
  | offering t s =>
    have hs : p.channel.senders = 1 := by simpa [result?, hp] using hf.senders
    rcases p.channel.emit_cases t with ⟨h0, -⟩ | ⟨-, -, he⟩ | ⟨-, -, he⟩ | ⟨hr, hroom, -⟩
    · omega
    · exact ⟨.send, _, by rw [move?, send, hp]; dsimp only; rw [he]⟩
    · exact ⟨.send, _, by rw [move?, send, hp]; dsimp only; rw [he]⟩
    · -- the channel is full, so it is for the consumer to move
      have hl : p.left = false := by
        by_contra hl
        have := ((hf.waits hr).2 (by simpa using hl)).2
        omega
      rcases leave_or_wants hl with hq | hw
      · exact ⟨.leave, hq⟩
      · cases hqueue : p.channel.queue with
        | cons u us => exact ⟨.receive, exists_receive hw hr (.inl (by simp [hqueue]))⟩
        | nil =>
          -- a channel that is full with nothing in it has no room for any token
          have hc : p.channel.capacity = some 0 := by
            cases hc : p.channel.capacity with
            | none => simp [Channel.hasRoom, hc] at hroom
            | some n => simpa [Channel.hasRoom, hc, hqueue] using hroom
          exact ⟨.handOver, by simp [move?, handOver, hp, hw, hc]⟩

end ParenLex.Pipeline
