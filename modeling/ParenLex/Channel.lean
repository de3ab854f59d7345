import ParenLex.Scan.Run

/-!
# Channels

A channel carries tokens from any number of senders to one receiver, in the order in which they were
sent. A bounded channel takes no token while it is full; one of capacity zero never holds any. When
the receiver goes, so do the tokens that wait for it.

* `emit_cases`: a token sent is the last in the queue; any other answer leaves the channel alone.
* `receive_cases`: a token received was the first in the queue.
* `bounded_push`, `bounded_pop`: neither takes the queue beyond the capacity.
-/

namespace ParenLex

structure Channel where
  capacity : Option Nat
  queue : List Token
  senders : Nat
  receiving : Bool

namespace Channel

/-- The answer to a sender; `full` and `noSender` mean that nothing was done. -/
inductive Sent
  | sent | closed | full | noSender
  deriving DecidableEq

/-- The answer to a receiver: a token, the end, or, with nothing done, that it has to wait or has
gone. -/
inductive Received
  | token (t : Token)
  | ended | waiting | gone
  deriving DecidableEq

/-- A channel with one sender and its receiver. -/
def new (capacity : Option Nat) : Channel := ⟨capacity, [], 1, true⟩

def hasRoom (ch : Channel) : Bool := ch.capacity.all (ch.queue.length < ·)

def emit (ch : Channel) (t : Token) : Sent × Channel :=
  if ch.senders = 0 then (.noSender, ch)
  else if !ch.receiving then (.closed, ch)
  else if ch.hasRoom then (.sent, { ch with queue := ch.queue ++ [t] })
  else (.full, ch)

def receive (ch : Channel) : Received × Channel :=
  if !ch.receiving then (.gone, ch)
  else
    match ch.queue with
    | t :: ts => (.token t, { ch with queue := ts })
    | [] => (if ch.senders = 0 then .ended else .waiting, ch)

/-- One more sender, if there is one to copy. -/
def cloneSender (ch : Channel) : Channel :=
  if ch.senders = 0 then ch else { ch with senders := ch.senders + 1 }

def dropSender (ch : Channel) : Channel := { ch with senders := ch.senders - 1 }

def dropReceiver (ch : Channel) : Channel := { ch with queue := [], receiving := false }

/-- The number of tokens that wait, while there are senders and a receiver. -/
def queued? (ch : Channel) : Option Nat :=
  if ch.senders = 0 || !ch.receiving then none else some ch.queue.length

/-- Takes tokens into the channel until it cannot. -/
def sink : Sink Channel where
  accepts ch t := (ch.emit t).1 == .sent
  push ch t := (ch.emit t).2
  stops _ _ := false

/-- Scans a text into the channel through a sender of its own, which goes with the end of the scan.
A scan that would have to wait for room is not begun. -/
def scan (ch : Channel) (text : String) : Sent × Channel :=
  if ch.senders = 0 then (.noSender, ch)
  else
    let r := (Scan.ofFeed (.ofText text) .default).run sink ch.cloneSender
    match r.result with
    | .ok _ => (.sent, r.sink.dropSender)
    | .error _ => (if ch.receiving then .full else .closed, ch)

/-- The queue is within the capacity. -/
def Bounded (ch : Channel) : Prop := ∀ n, ch.capacity = some n → ch.queue.length ≤ n

theorem bounded_new (capacity : Option Nat) : (new capacity).Bounded := by simp [new, Bounded]

/-- There is room for one token more. -/
theorem bounded_push {ch : Channel} (h : ch.hasRoom = true) (t : Token) :
    { ch with queue := ch.queue ++ [t] }.Bounded := by
  intro n hn
  have hc : ch.capacity = some n := hn
  simp only [hasRoom, hc, Option.all_some, decide_eq_true_eq] at h
  simpa using Nat.succ_le_of_lt h

theorem bounded_pop {ch : Channel} {t : Token} {ts : List Token} (h : ch.Bounded)
    (hq : ch.queue = t :: ts) : { ch with queue := ts }.Bounded := by
  intro n hn
  have hb := h n hn
  rw [hq, List.length_cons] at hb
  exact Nat.le_of_succ_le hb

/-- The receiver is there or not, whatever senders do. -/
@[simp] theorem receiving_cloneSender (ch : Channel) :
    ch.cloneSender.receiving = ch.receiving := by
  unfold cloneSender
  split <;> rfl

/-! ### Answers -/

/-- What comes of sending a token, by its answer. -/
theorem emit_cases (ch : Channel) (t : Token) :
    ch.senders = 0 ∧ ch.emit t = (.noSender, ch) ∨
    ch.senders ≠ 0 ∧ ch.receiving = false ∧ ch.emit t = (.closed, ch) ∨
    ch.receiving = true ∧ ch.hasRoom = true ∧
      ch.emit t = (.sent, { ch with queue := ch.queue ++ [t] }) ∨
    ch.receiving = true ∧ ch.hasRoom = false ∧ ch.emit t = (.full, ch) := by
  unfold emit
  by_cases hs : ch.senders = 0
  · exact .inl ⟨hs, if_pos hs⟩
  · rw [if_neg hs]
    cases hr : ch.receiving with
    | false => exact .inr (.inl ⟨hs, rfl, rfl⟩)
    | true =>
      cases hroom : ch.hasRoom with
      | false => exact .inr (.inr (.inr ⟨rfl, rfl, by simp⟩))
      | true => exact .inr (.inr (.inl ⟨rfl, rfl, by simp⟩))

/-- Without a receiver every sender is told that the channel is closed. -/
theorem emit_of_gone {ch : Channel} (hs : ch.senders ≠ 0) (hr : ch.receiving = false) (t : Token) :
    ch.emit t = (.closed, ch) := by
  simp [emit, hs, hr]

/-- With one it is the room that decides. -/
theorem emit_of_receiving {ch : Channel} (hs : ch.senders ≠ 0) (hr : ch.receiving = true)
    (t : Token) : ch.emit t =
      if ch.hasRoom then (.sent, { ch with queue := ch.queue ++ [t] }) else (.full, ch) := by
  simp [emit, hs, hr]

/-- What comes of receiving, by its answer. -/
theorem receive_cases (ch : Channel) :
    ch.receiving = false ∧ ch.receive = (.gone, ch) ∨
    (∃ t ts, ch.receiving = true ∧ ch.queue = t :: ts ∧
      ch.receive = (.token t, { ch with queue := ts })) ∨
    ch.receiving = true ∧ ch.queue = [] ∧ ch.senders = 0 ∧ ch.receive = (.ended, ch) ∨
    ch.receiving = true ∧ ch.queue = [] ∧ ch.senders ≠ 0 ∧ ch.receive = (.waiting, ch) := by
  unfold receive
  cases hr : ch.receiving with
  | false => exact .inl ⟨rfl, rfl⟩
  | true =>
    cases hq : ch.queue with
    | cons t ts => exact .inr (.inl ⟨t, ts, rfl, rfl, by simp⟩)
    | nil =>
      by_cases hs : ch.senders = 0
      · exact .inr (.inr (.inl ⟨rfl, rfl, hs, by simp [hs]⟩))
      · exact .inr (.inr (.inr ⟨rfl, rfl, hs, by simp [hs]⟩))

end Channel

end ParenLex
