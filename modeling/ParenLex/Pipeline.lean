import ParenLex.Channel

/-!
# Scans with a consumer

A pipeline is a scan that offers its tokens to a channel, and a consumer that receives them until it
has had enough. The two sides move independently: a move is possible or not in a state of the
pipeline, and every order of possible moves is a way in which it may go. With no room at all in the
channel, sending and receiving are one move.

* `goes_of_move`: what a move can do.
* `budget_of_move`: every move lowers the budget, so every pipeline comes to rest.
-/

namespace ParenLex

/-- The side that scans: about to take a turn, waiting to send a token and go on, or finished. -/
inductive Producer
  | scanning (s : Scan)
  | offering (t : Token) (next : Scan)
  | finished (r : Except ScanError Unit)

/-- The producer, the channel, and the consumer: the tokens it has received, the last one first, how
many more it wants, if that is limited, and whether it has left. `stop` is the flag as set from
outside. -/
structure Pipeline where
  producer : Producer
  channel : Channel
  received : List Token
  limit : Option Nat
  left : Bool
  stop : Bool

namespace Pipeline

/-- The moves, of the consumer and the producer. -/
inductive Move
  | leave | receive | handOver | send | turn
  deriving DecidableEq

/-- A scan of a feed about to begin, with a channel of the capacity set. -/
def start (f : Feed) (s : Settings) (limit : Option Nat) (stop : Bool) : Pipeline :=
  ⟨.scanning (.ofFeed f s), .new s.capacity, [], limit, false, stop⟩

/-- Whether the consumer asks for a token. -/
def wants (p : Pipeline) : Bool := !p.left && p.limit != some 0

/-- The consumer has one token more. -/
def take (p : Pipeline) (t : Token) : Pipeline :=
  { p with received := t :: p.received, limit := p.limit.map (· - 1) }

/-- The producer ends and its sender goes. -/
def finish (p : Pipeline) (r : Except ScanError Unit) : Pipeline :=
  { p with producer := .finished r, channel := p.channel.dropSender }

/-- The consumer leaves once it has had enough, and the receiver goes. -/
def leave (p : Pipeline) : Option Pipeline :=
  if !p.left && !p.wants then
    some { p with left := true, channel := p.channel.dropReceiver }
  else none

/-- The consumer takes what the channel has for it: a token, or the end. -/
def receive (p : Pipeline) : Option Pipeline :=
  if p.wants then
    match p.channel.receive with
    | (.token t, ch) => some { p.take t with channel := ch }
    | (.ended, ch) => some { p with left := true, channel := ch }
    | _ => none
  else none

/-- The token goes from hand to hand, as it must where the channel holds none. -/
def handOver (p : Pipeline) : Option Pipeline :=
  match p.producer with
  | .offering t s =>
    if p.wants && p.channel.capacity == some 0 then
      some { p.take t with producer := .scanning s }
    else none
  | _ => none

/-- The token goes into the channel, or is refused. -/
def send (p : Pipeline) : Option Pipeline :=
  match p.producer with
  | .offering t s =>
    match p.channel.emit t with
    | (.sent, ch) => some { p with producer := .scanning s, channel := ch }
    | (.closed, _) => some (p.finish (.error .sinkClosed))
    | _ => none
  | _ => none

/-- The scan takes a turn, or ends if it is over. -/
def turn (p : Pipeline) : Option Pipeline :=
  match p.producer with
  | .scanning s =>
    match s.over? with
    | some r => some (p.finish r)
    | none =>
      let t := s.turn (p.stop || s.stopPassed)
      match t.offer with
      | some tok => some { p with producer := .offering tok t.next }
      | none => some { p with producer := .scanning t.next }
  | _ => none

/-- The pipeline after a move, if the move is possible. -/
def move? (p : Pipeline) : Move → Option Pipeline
  | .leave => p.leave
  | .receive => p.receive
  | .handOver => p.handOver
  | .send => p.send
  | .turn => p.turn

/-- A bound on the moves of the producer and on the tokens it may still send, together. -/
def producerBudget (p : Pipeline) : Nat :=
  match p.producer with
  | .scanning s => 3 * s.budget + 1
  | .offering _ s => 3 * s.budget + 3
  | .finished _ => 0

/-- A bound on the moves left. -/
def budget (p : Pipeline) : Nat :=
  p.producerBudget + p.channel.queue.length + (!p.left).toNat

/-- The token that leaves the scan's hands in a move: into the channel, or over to the consumer. -/
def passes (p : Pipeline) (m : Move) : List Token :=
  match m, p.producer with
  | .send, .offering t _ => if (p.channel.emit t).1 = .sent then [t] else []
  | .handOver, .offering t _ => [t]
  | _, _ => []

variable {p q : Pipeline} {m : Move} {us : List Token}

/-! ### Moves -/

/-- **What a move can do**, with the token that leaves the scan's hands in it. -/
inductive Goes (p : Pipeline) : List Token → Pipeline → Prop
  | leave : p.left = false → p.limit = some 0 →
      Goes p [] { p with left := true, channel := p.channel.dropReceiver }
  | receive (t : Token) (ts : List Token) : p.wants = true → p.channel.receiving = true →
      p.channel.queue = t :: ts →
      Goes p [] { p.take t with channel := { p.channel with queue := ts } }
  | ended : p.wants = true → p.channel.receiving = true → p.channel.queue = [] →
      p.channel.senders = 0 → Goes p [] { p with left := true }
  | handOver (t : Token) (s : Scan) : p.producer = .offering t s → p.wants = true →
      p.channel.capacity = some 0 → Goes p [t] { p.take t with producer := .scanning s }
  | sent (t : Token) (s : Scan) : p.producer = .offering t s → p.channel.receiving = true →
      p.channel.hasRoom = true →
      Goes p [t] { p with
        producer := .scanning s
        channel := { p.channel with queue := p.channel.queue ++ [t] } }
  | refused (t : Token) (s : Scan) : p.producer = .offering t s → p.channel.receiving = false →
      Goes p [] (p.finish (.error .sinkClosed))
  | ends (s : Scan) (r : Except ScanError Unit) : p.producer = .scanning s → s.over? = some r →
      Goes p [] (p.finish r)
  | offer (s : Scan) (t : Token) : p.producer = .scanning s → s.over? = none →
      (s.turn (p.stop || s.stopPassed)).offer = some t →
      Goes p [] { p with producer := .offering t (s.turn (p.stop || s.stopPassed)).next }
  | turn (s : Scan) : p.producer = .scanning s → s.over? = none →
      (s.turn (p.stop || s.stopPassed)).offer = none →
      Goes p [] { p with producer := .scanning (s.turn (p.stop || s.stopPassed)).next }

theorem wants_iff : p.wants = true ↔ p.left = false ∧ p.limit ≠ some 0 := by
  simp [wants]

theorem goes_leave (h : p.leave = some q) : p.Goes [] q := by
  unfold leave at h
  split at h
  · next hw =>
    obtain rfl := Option.some.inj h
    obtain ⟨hl, hn⟩ : p.left = false ∧ p.wants = false := by simpa using hw
    have hlim : p.limit = some 0 := by simpa [wants, hl] using hn
    exact .leave hl hlim
  · cases h

theorem goes_receive (h : p.receive = some q) : p.Goes [] q := by
  unfold receive at h
  split at h
  · next hw =>
    rcases p.channel.receive_cases with
      ⟨-, he⟩ | ⟨t, ts, hr, hq, he⟩ | ⟨hr, hq, hs, he⟩ | ⟨-, -, -, he⟩
    · rw [he] at h
      cases h
    · rw [he] at h
      obtain rfl := Option.some.inj h
      exact .receive t ts hw hr hq
    · rw [he] at h
      obtain rfl := Option.some.inj h
      exact .ended hw hr hq hs
    · rw [he] at h
      cases h
  · cases h

theorem goes_handOver (h : p.handOver = some q) : p.Goes (p.passes .handOver) q := by
  unfold handOver at h
  split at h
  · next t s hp =>
    split at h
    · next hw =>
      obtain rfl := Option.some.inj h
      obtain ⟨hw, hc⟩ : p.wants = true ∧ p.channel.capacity = some 0 := by simpa using hw
      rw [show p.passes .handOver = [t] by simp [passes, hp]]
      exact .handOver t s hp hw hc
    · cases h
  · cases h

theorem goes_send (h : p.send = some q) : p.Goes (p.passes .send) q := by
  unfold send at h
  split at h
  · next t s hp =>
    have hpass : p.passes .send = if (p.channel.emit t).1 = .sent then [t] else [] := by
      simp [passes, hp]
    rw [hpass]
    rcases p.channel.emit_cases t with ⟨-, he⟩ | ⟨-, hr, he⟩ | ⟨hr, hroom, he⟩ | ⟨-, -, he⟩
    · rw [he] at h
      cases h
    · rw [he] at h ⊢
      obtain rfl := Option.some.inj h
      exact .refused t s hp hr
    · rw [he] at h ⊢
      obtain rfl := Option.some.inj h
      exact .sent t s hp hr hroom
    · rw [he] at h
      cases h
  · cases h

theorem goes_turn (h : p.turn = some q) : p.Goes [] q := by
  unfold turn at h
  split at h
  · next s hp =>
    split at h
    · next r ho =>
      obtain rfl := Option.some.inj h
      exact .ends s r hp ho
    · next ho =>
      dsimp only at h
      split at h
      · next t ht =>
        obtain rfl := Option.some.inj h
        exact .offer s t hp ho ht
      · next ht =>
        obtain rfl := Option.some.inj h
        exact .turn s hp ho ht
  · cases h

/-- **Every move does one of these.** -/
theorem goes_of_move (h : p.move? m = some q) : p.Goes (p.passes m) q := by
  cases m with
  | leave => exact goes_leave h
  | receive => exact goes_receive h
  | handOver => exact goes_handOver h
  | send => exact goes_send h
  | turn => exact goes_turn h

/-! ### Progress -/

theorem budget_of_goes (h : p.Goes us q) : q.budget < p.budget := by
  cases h with
  | leave hl hlim =>
    show p.producerBudget + 0 + 0 < p.producerBudget + p.channel.queue.length + (!p.left).toNat
    rw [hl]
    show p.producerBudget < p.producerBudget + p.channel.queue.length + 1
    omega
  | receive t ts hw hr hq => simp [budget, producerBudget, take, hq]
  | ended hw hr hq hs => simp [budget, producerBudget, (wants_iff.1 hw).1]
  | handOver t s hp hw hc => simp [budget, producerBudget, take, hp]
  | sent t s hp hr hroom =>
    simp only [budget, producerBudget, hp, List.length_append, List.length_singleton]
    omega
  | refused t s hp hr => simp [budget, producerBudget, hp, finish, Channel.dropSender]
  | ends s r hp ho => simp [budget, producerBudget, hp, finish, Channel.dropSender]
  | offer s t hp ho ht =>
    have hb := Scan.budget_turn (p.stop || s.stopPassed) ho
    simp only [budget, producerBudget, hp]
    omega
  | turn s hp ho ht =>
    have hb := Scan.budget_turn (p.stop || s.stopPassed) ho
    simp only [budget, producerBudget, hp]
    omega

/-- **Every move lowers the budget.** -/
theorem budget_of_move (h : p.move? m = some q) : q.budget < p.budget :=
  budget_of_goes (goes_of_move h)

/-- The state after the first possible move, the consumer's before the producer's. -/
def next? (p : Pipeline) : Option Pipeline :=
  [Move.leave, .receive, .handOver, .send, .turn].findSome? p.move?

/-- Moves the pipeline on until it is at rest, with the consumer as eager as it can be. -/
def run (p : Pipeline) : Pipeline :=
  match _h : p.next? with
  | some q => q.run
  | none => p
termination_by p.budget
decreasing_by
  obtain ⟨m, -, hm⟩ := List.exists_of_findSome?_eq_some (by assumption)
  exact budget_of_move hm

/-- The tokens received, in their order. -/
def tokens (p : Pipeline) : List Token := p.received.reverse

/-- What the producer ended with. -/
def result? (p : Pipeline) : Option (Except ScanError Unit) :=
  match p.producer with
  | .finished r => some r
  | _ => none

end Pipeline

end ParenLex
