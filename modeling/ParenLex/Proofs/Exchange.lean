import ParenLex.Proofs.Sharing

/-!
# One channel, several producers

An exchange is a channel in the use of several producers: senders held by hand, and scans that send
through senders of their own. They act in any order, and so does the receiver.

* `does_of_act`: what an act can do.
* `holds_of_does`: what all acts preserve. The tokens received and those that wait are those sent, in
  their order; each scan has sent the first of its tokens; the senders are those held by hand and
  those of the scans still going.
-/

namespace ParenLex

/-- A scan that sends into a channel it shares: its text, and how far it is. -/
structure Job where
  text : String
  producer : Producer

/-- A token that has been sent, and the scan that sent it, or none if it was sent by hand. -/
structure Sending where
  origin : Option Nat
  token : Token

/-- **A channel with its producers**: the senders held by hand, the scans begun so far, by whose
numbers they go, and the tokens received. `sent` is the record of all tokens sent with success. -/
structure Exchange where
  channel : Channel
  handles : Nat
  jobs : List Job
  received : List Token
  sent : List Sending

/-- What a scan reported, if it has ended. -/
def Job.result? (job : Job) : Option (Except ScanError Unit) :=
  match job.producer with
  | .finished r => some r
  | _ => none

/-- The tokens sent from one origin, in their order. -/
def Sending.tokensOf (o : Option Nat) (ss : List Sending) : List Token :=
  (ss.filter (·.origin = o)).map (·.token)

namespace Exchange

/-- What may happen to a channel in use: a token is sent by hand, into the channel or straight to a
receiver that waits, one is received, senders are copied and dropped, the receiver is dropped, a scan
runs from its beginning to its end or is begun, and a scan moves on. -/
inductive Act
  | emit (t : Token)
  | meet (t : Token)
  | receive | cloneSender | dropSender | dropReceiver
  | scan (text : String)
  | spawn (text : String)
  | turn (i : Nat)
  | send (i : Nat)
  | handOver (i : Nat)

/-- A channel with one sender. -/
def start (capacity : Option Nat) : Exchange := ⟨.new capacity, 1, [], [], []⟩

/-- The channel as one of its scans sees it. -/
def pipeline (x : Exchange) (producer : Producer) : Pipeline :=
  ⟨producer, x.channel, x.received.reverse, none, !x.channel.receiving, false⟩

/-- The exchange after a move of scan `i` in which the tokens `us` have left its hands. -/
def resume (x : Exchange) (i : Nat) (job : Job) (us : List Token) (q : Pipeline) : Exchange :=
  { x with
    channel := q.channel
    jobs := x.jobs.set i { job with producer := q.producer }
    received := q.tokens
    sent := x.sent ++ us.map (Sending.mk (some i)) }

/-- Moves a scan on, as it would move in a pipeline. -/
def work? (x : Exchange) (i : Nat) (m : Pipeline.Move) : Option Exchange :=
  match x.jobs[i]? with
  | none => none
  | some job => ((x.pipeline job.producer).move? m).map
      (x.resume i job ((x.pipeline job.producer).passes m))

/-- Sends by hand. A token that is refused is not sent, and one for which there is no room has to
wait. -/
def emit? (x : Exchange) (t : Token) : Option Exchange :=
  if x.handles = 0 then none
  else
    match x.channel.emit t with
    | (.sent, ch) => some { x with channel := ch, sent := x.sent ++ [⟨none, t⟩] }
    | (.closed, _) => some x
    | _ => none

/-- Sends by hand where the channel holds nothing. -/
def meet? (x : Exchange) (t : Token) : Option Exchange :=
  if x.handles ≠ 0 ∧ x.channel.receiving = true ∧ x.channel.capacity = some 0 then
    some { x with received := x.received ++ [t], sent := x.sent ++ [⟨none, t⟩] }
  else none

/-- Receives a token, or sees the end. -/
def receive? (x : Exchange) : Option Exchange :=
  match x.channel.receive with
  | (.token t, ch) => some { x with channel := ch, received := x.received ++ [t] }
  | (.ended, _) => some x
  | _ => none

/-- Runs a scan from its beginning to its end, with nothing in between. -/
def scan? (x : Exchange) (text : String) : Option Exchange :=
  if x.handles = 0 then none
  else
    match x.channel.scan text with
    | (.sent, ch) => some { x with
        channel := ch
        jobs := x.jobs ++ [⟨text, .finished (.ok ())⟩]
        sent := x.sent ++
          (ch.queue.drop x.channel.queue.length).map (Sending.mk (some x.jobs.length)) }
    | (.closed, _) => some { x with
        jobs := x.jobs ++ [⟨text, .finished (.error .sinkClosed)⟩] }
    | _ => none

/-- The exchange after an act, if the act is possible. -/
def act? (x : Exchange) : Act → Option Exchange
  | .emit t => x.emit? t
  | .meet t => x.meet? t
  | .receive => x.receive?
  | .cloneSender =>
    if x.handles = 0 then none
    else some { x with channel := x.channel.cloneSender, handles := x.handles + 1 }
  | .dropSender =>
    if x.handles = 0 then none
    else some { x with channel := x.channel.dropSender, handles := x.handles - 1 }
  | .dropReceiver => some { x with channel := x.channel.dropReceiver }
  | .scan text => x.scan? text
  | .spawn text =>
    if x.handles = 0 then none
    else some { x with
      channel := x.channel.cloneSender
      jobs := x.jobs ++ [⟨text, .scanning (.ofFeed (.ofText text) .default)⟩] }
  | .turn i => x.work? i .turn
  | .send i => x.work? i .send
  | .handOver i => x.work? i .handOver

/-- **One act after another**, if all of them are possible. -/
def follow? (x : Exchange) : List Act → Option Exchange
  | [] => some x
  | a :: as => (x.act? a).bind (·.follow? as)

/-- An act whose text, if it has one, is within the counters. -/
def Act.Fits : Act → Prop
  | .scan text => text.utf8ByteSize ≤ counterMax
  | .spawn text => text.utf8ByteSize ≤ counterMax
  | _ => True

/-- The tokens that scan `i` has sent. -/
def sentBy (x : Exchange) (i : Nat) : List Token := Sending.tokensOf (some i) x.sent

end Exchange

namespace Sending

variable {o o' : Option Nat} {ss : List Sending} {ts : List Token}

theorem map_token (o : Option Nat) (ts : List Token) :
    (ts.map (mk o)).map (·.token) = ts := by
  rw [List.map_map]
  exact List.map_id ts

theorem tokensOf_append (o : Option Nat) (ss rs : List Sending) :
    tokensOf o (ss ++ rs) = tokensOf o ss ++ tokensOf o rs := by
  simp only [tokensOf, List.filter_append, List.map_append]

/-- Tokens sent from one origin are all from there. -/
theorem tokensOf_map : tokensOf o (ts.map (mk o)) = ts := by
  rw [tokensOf, List.filter_eq_self.2, map_token]
  simp

/-- A producer that has sent nothing. -/
theorem tokensOf_eq_nil (h : ∀ s ∈ ss, s.origin ≠ o) : tokensOf o ss = [] := by
  rw [tokensOf, List.filter_eq_nil_iff.2 (by simpa using h), List.map_nil]

theorem tokensOf_map_of_ne (h : o' ≠ o) : tokensOf o (ts.map (mk o')) = [] := by
  apply tokensOf_eq_nil
  intro s hs
  obtain ⟨t, -, rfl⟩ := List.mem_map.1 hs
  exact h

end Sending

namespace Exchange

variable {x y : Exchange} {a : Act} {as : List Act} {capacity : Option Nat}

/-! ### Acts -/

/-- **What an act can do.** -/
inductive Does (x : Exchange) : Exchange → Prop
  | nothing : Does x x
  | sent (t : Token) : x.handles ≠ 0 → x.channel.receiving = true → x.channel.hasRoom = true →
      Does x { x with
        channel := { x.channel with queue := x.channel.queue ++ [t] }
        sent := x.sent ++ [⟨none, t⟩] }
  | met (t : Token) : x.handles ≠ 0 → x.channel.receiving = true →
      x.channel.capacity = some 0 →
      Does x { x with received := x.received ++ [t], sent := x.sent ++ [⟨none, t⟩] }
  | received (t : Token) (ts : List Token) : x.channel.receiving = true →
      x.channel.queue = t :: ts →
      Does x { x with
        channel := { x.channel with queue := ts }
        received := x.received ++ [t] }
  | cloned : x.handles ≠ 0 →
      Does x { x with channel := x.channel.cloneSender, handles := x.handles + 1 }
  | dropped : x.handles ≠ 0 →
      Does x { x with channel := x.channel.dropSender, handles := x.handles - 1 }
  | left : Does x { x with channel := x.channel.dropReceiver }
  | scanned (text : String) : text.utf8ByteSize ≤ counterMax → x.channel.receiving = true →
      (x.channel.Bounded →
        { x.channel with queue := x.channel.queue ++ tokenize text }.Bounded) →
      Does x { x with
        channel := { x.channel with queue := x.channel.queue ++ tokenize text }
        jobs := x.jobs ++ [⟨text, .finished (.ok ())⟩]
        sent := x.sent ++ (tokenize text).map (Sending.mk (some x.jobs.length)) }
  | refused (text : String) : text.utf8ByteSize ≤ counterMax → x.channel.receiving = false →
      Does x { x with jobs := x.jobs ++ [⟨text, .finished (.error .sinkClosed)⟩] }
  | spawned (text : String) : text.utf8ByteSize ≤ counterMax → x.handles ≠ 0 →
      Does x { x with
        channel := x.channel.cloneSender
        jobs := x.jobs ++ [⟨text, .scanning (.ofFeed (.ofText text) .default)⟩] }
  | worked (i : Nat) (job : Job) (us : List Token) (q : Pipeline) : x.jobs[i]? = some job →
      (x.pipeline job.producer).Goes us q → Does x (x.resume i job us q)

theorem does_of_work {i : Nat} {m : Pipeline.Move} (h : x.work? i m = some y) : x.Does y := by
  unfold work? at h
  split at h
  · cases h
  · next job hj =>
    obtain ⟨q, hq, rfl⟩ := Option.map_eq_some_iff.1 h
    exact .worked i job _ q hj (Pipeline.goes_of_move hq)

theorem does_of_emit {t : Token} (h : x.emit? t = some y) : x.Does y := by
  unfold emit? at h
  split at h
  · cases h
  · next hh =>
    rcases x.channel.emit_cases t with ⟨-, he⟩ | ⟨-, -, he⟩ | ⟨hr, hroom, he⟩ | ⟨-, -, he⟩
    · rw [he] at h
      cases h
    · rw [he] at h
      obtain rfl := Option.some.inj h
      exact .nothing
    · rw [he] at h
      obtain rfl := Option.some.inj h
      exact .sent t hh hr hroom
    · rw [he] at h
      cases h

theorem does_of_receive (h : x.receive? = some y) : x.Does y := by
  unfold receive? at h
  rcases x.channel.receive_cases with ⟨-, he⟩ | ⟨t, ts, hr, hq, he⟩ | ⟨-, -, -, he⟩ | ⟨-, -, -, he⟩
  · rw [he] at h
    cases h
  · rw [he] at h
    obtain rfl := Option.some.inj h
    exact .received t ts hr hq
  · rw [he] at h
    obtain rfl := Option.some.inj h
    exact .nothing
  · rw [he] at h
    cases h

theorem does_of_scan {text : String} (hfit : text.utf8ByteSize ≤ counterMax)
    (h : x.scan? text = some y) : x.Does y := by
  unfold scan? at h
  split at h
  · cases h
  · rcases x.channel.scan_cases hfit with ⟨-, he⟩ | ⟨-, hr, he⟩ | ⟨hr, he, hb⟩ | ⟨-, he⟩
    · rw [he] at h
      cases h
    · rw [he] at h
      obtain rfl := Option.some.inj h
      exact .refused text hfit hr
    · rw [he] at h
      obtain rfl := Option.some.inj h
      dsimp only
      rw [List.drop_left]
      exact .scanned text hfit hr hb
    · rw [he] at h
      cases h

/-- **Every act does one of these.** -/
theorem does_of_act (hfit : a.Fits) (h : x.act? a = some y) : x.Does y := by
  cases a with
  | emit t => exact does_of_emit h
  | meet t =>
    simp only [act?, meet?] at h
    split at h
    · next hm =>
      obtain rfl := Option.some.inj h
      exact .met t hm.1 hm.2.1 hm.2.2
    · cases h
  | receive => exact does_of_receive h
  | cloneSender =>
    simp only [act?] at h
    split at h
    · cases h
    · next hh =>
      obtain rfl := Option.some.inj h
      exact .cloned hh
  | dropSender =>
    simp only [act?] at h
    split at h
    · cases h
    · next hh =>
      obtain rfl := Option.some.inj h
      exact .dropped hh
  | dropReceiver =>
    obtain rfl := Option.some.inj h
    exact .left
  | scan text => exact does_of_scan hfit h
  | spawn text =>
    simp only [act?] at h
    split at h
    · cases h
    · next hh =>
      obtain rfl := Option.some.inj h
      exact .spawned text hfit hh
  | turn i => exact does_of_work h
  | send i => exact does_of_work h
  | handOver i => exact does_of_work h

theorem follow?_cons : x.follow? (a :: as) = some y ↔
    ∃ z, x.act? a = some z ∧ z.follow? as = some y := by
  simp only [follow?, Option.bind_eq_some_iff]

/-! ### What acts preserve -/

/-- **The accounts of an exchange.** The senders are those held by hand and those of the scans still
going; while there is a receiver, the tokens sent have been received or wait; and each scan has sent
the first of the tokens of its text, all of them if it ended well. -/
structure Holds (capacity : Option Nat) (x : Exchange) : Prop where
  capacity : x.channel.capacity = capacity
  senders : x.channel.senders = x.handles + x.jobs.countP (·.result?.isNone)
  bounded : x.channel.Bounded
  flows : x.channel.receiving = true →
    x.received ++ x.channel.queue = x.sent.map (·.token)
  owes : ∀ i job, x.jobs[i]? = some job → job.text.utf8ByteSize ≤ counterMax ∧
    Pipeline.Owes (tokenize job.text) (.ok ()) (x.sentBy i) x.channel.receiving job.producer
  origins : ∀ s ∈ x.sent, ∀ i, s.origin = some i → i < x.jobs.length

theorem holds_start (capacity : Option Nat) : (start capacity).Holds capacity := by
  refine ⟨rfl, rfl, Channel.bounded_new capacity, fun _ => rfl, ?_, ?_⟩
  · intro i job hj
    cases hj
  · intro s hs
    cases hs

/-- A scan that has not begun has sent nothing. -/
theorem Holds.sentBy_of_le (h : x.Holds capacity) {i : Nat} (hi : x.jobs.length ≤ i) :
    x.sentBy i = [] := by
  apply Sending.tokensOf_eq_nil
  intro s hs ho
  have hlt := h.origins s hs i ho
  omega

/-- With a sender in hand there is one to copy. -/
theorem Holds.cloneSender (h : x.Holds capacity) (hh : x.handles ≠ 0) :
    x.channel.cloneSender = { x.channel with senders := x.channel.senders + 1 } := by
  have hs := h.senders
  exact if_neg (by omega)

/-- **What is done by hand, or by the receiver, leaves the scans as they are.** -/
theorem Holds.by_hand (h : x.Holds capacity) (ch : Channel) (handles : Nat)
    (received ts : List Token) (hc : ch.capacity = x.channel.capacity)
    (hs : ch.senders = handles + x.jobs.countP (·.result?.isNone)) (hb : ch.Bounded)
    (hr : ch.receiving = x.channel.receiving)
    (hf : ch.receiving = true → received ++ ch.queue = x.sent.map (·.token) ++ ts) :
    Holds capacity { x with
      channel := ch
      handles := handles
      received := received
      sent := x.sent ++ ts.map (Sending.mk none) } := by
  refine ⟨hc.trans h.capacity, hs, hb, ?_, ?_, ?_⟩
  · intro hrecv
    rw [hf hrecv, List.map_append, Sending.map_token]
  · intro i job hj
    show _ ∧ Pipeline.Owes _ _ (Sending.tokensOf _ _) ch.receiving _
    rw [Sending.tokensOf_append, Sending.tokensOf_map_of_ne (by simp), List.append_nil, hr]
    exact h.owes i job hj
  · intro s hs i ho
    rcases List.mem_append.1 hs with hs | hs
    · exact h.origins s hs i ho
    · obtain ⟨t, -, rfl⟩ := List.mem_map.1 hs
      cases ho

/-- **A scan that has just begun, or is over at once**, joins those that there are. -/
theorem Holds.join (h : x.Holds capacity) (ch : Channel) (job : Job) (ts : List Token)
    (hfit : job.text.utf8ByteSize ≤ counterMax) (hc : ch.capacity = x.channel.capacity)
    (hs : ch.senders = x.channel.senders + if job.result?.isNone then 1 else 0) (hb : ch.Bounded)
    (hr : ch.receiving = x.channel.receiving)
    (hf : ch.receiving = true → ch.queue = x.channel.queue ++ ts)
    (ho : Pipeline.Owes (tokenize job.text) (.ok ()) ts x.channel.receiving job.producer) :
    Holds capacity { x with
      channel := ch
      jobs := x.jobs ++ [job]
      sent := x.sent ++ ts.map (Sending.mk (some x.jobs.length)) } := by
  refine ⟨hc.trans h.capacity, ?_, hb, ?_, ?_, ?_⟩
  · show ch.senders = x.handles + (x.jobs ++ [job]).countP _
    rw [hs, h.senders, List.countP_append, List.countP_singleton, Nat.add_assoc]
  · intro hrecv
    show x.received ++ ch.queue = _
    rw [hf hrecv, ← List.append_assoc, h.flows (hr ▸ hrecv), List.map_append, Sending.map_token]
  · intro i job' hj
    show _ ∧ Pipeline.Owes _ _ (Sending.tokensOf _ _) ch.receiving _
    rw [Sending.tokensOf_append, hr]
    have hj : (x.jobs ++ [job])[i]? = some job' := hj
    by_cases hi : i < x.jobs.length
    · rw [Sending.tokensOf_map_of_ne (by simp; omega), List.append_nil]
      rw [List.getElem?_append_left hi] at hj
      exact h.owes i job' hj
    · -- the new scan is the only one of its number
      rw [List.getElem?_append_right (by omega)] at hj
      obtain ⟨hi', rfl⟩ : i - x.jobs.length = 0 ∧ job = job' := by
        simpa [List.getElem?_singleton] using hj
      obtain rfl : i = x.jobs.length := by omega
      have hnil : Sending.tokensOf (some x.jobs.length) x.sent = [] := h.sentBy_of_le le_rfl
      rw [hnil, Sending.tokensOf_map, List.nil_append]
      exact ⟨hfit, ho⟩
  · intro s hs i ho
    show i < (x.jobs ++ [job]).length
    rw [List.length_append, List.length_singleton]
    rcases List.mem_append.1 hs with hs | hs
    · exact Nat.lt_succ_of_lt (h.origins s hs i ho)
    · obtain ⟨t, -, rfl⟩ := List.mem_map.1 hs
      obtain rfl : x.jobs.length = i := by simpa using ho
      exact Nat.lt_succ_self _

/-- A scan has a sender until it ends; the others are those held by hand and those of other
scans. -/
theorem Holds.senders_set (h : x.Holds capacity) {i : Nat} (job : Job) (hi : i < x.jobs.length) :
    ∃ n, x.channel.senders = n + (if x.jobs[i].result?.isNone then 1 else 0) ∧
      x.handles + (x.jobs.set i job).countP (·.result?.isNone) =
        n + if job.result?.isNone then 1 else 0 := by
  have hpos : (if x.jobs[i].result?.isNone then 1 else 0) ≤
      x.jobs.countP (·.result?.isNone) := by
    split
    · next hn => exact List.countP_pos_iff.2 ⟨x.jobs[i], List.getElem_mem hi, hn⟩
    · exact Nat.zero_le _
  refine ⟨x.handles + (x.jobs.countP (·.result?.isNone) -
    if x.jobs[i].result?.isNone then 1 else 0), ?_, ?_⟩
  · rw [h.senders]
    omega
  · rw [List.countP_set hi, Nat.add_assoc]

/-- **A move of a scan** concerns the channel and that scan alone. -/
theorem Holds.resume (h : x.Holds capacity) {i : Nat} {job : Job} {us : List Token} {q : Pipeline}
    (hj : x.jobs[i]? = some job) (hg : (x.pipeline job.producer).Goes us q) :
    (x.resume i job us q).Holds capacity := by
  have hs := Pipeline.shares_of_goes rfl rfl hg
  obtain ⟨hfit, ho⟩ := h.owes i job hj
  have ho := Pipeline.owes_of_goes rfl ho hg
  obtain ⟨hi, rfl⟩ := List.getElem?_eq_some_iff.1 hj
  refine ⟨hs.capacity.trans h.capacity, ?_, hs.bounded h.bounded, ?_, ?_, ?_⟩
  · obtain ⟨n, hn, hset⟩ := h.senders_set { x.jobs[i] with producer := q.producer } hi
    show q.channel.senders = x.handles + (x.jobs.set i _).countP _
    rw [hset]
    exact hs.senders n hn
  · intro hrecv
    show q.tokens ++ q.channel.queue = _
    have hrecv : x.channel.receiving = true := hs.receiving.symm.trans hrecv
    have htokens : (x.pipeline x.jobs[i].producer).tokens = x.received :=
      List.reverse_reverse x.received
    have hflows := hs.flows h.bounded hrecv
    rw [htokens] at hflows
    show _ = (x.sent ++ us.map _).map _
    rw [hflows, List.map_append, Sending.map_token]
    exact congrArg (· ++ us) (h.flows hrecv)
  · intro k job' hk
    show _ ∧ Pipeline.Owes _ _ (Sending.tokensOf _ (x.sent ++ us.map _)) q.channel.receiving _
    rw [Sending.tokensOf_append]
    have hk : (x.jobs.set i _)[k]? = some job' := hk
    by_cases hik : i = k
    · subst hik
      rw [List.getElem?_set_self hi] at hk
      obtain rfl := Option.some.inj hk
      rw [Sending.tokensOf_map]
      exact ⟨hfit, ho⟩
    · rw [List.getElem?_set_ne hik] at hk
      rw [Sending.tokensOf_map_of_ne (by simpa using hik), List.append_nil, hs.receiving]
      exact h.owes k job' hk
  · intro s hs k ho
    show k < (x.jobs.set i _).length
    rw [List.length_set]
    rcases List.mem_append.1 hs with hs | hs
    · exact h.origins s hs k ho
    · obtain ⟨t, -, rfl⟩ := List.mem_map.1 hs
      obtain rfl : i = k := by simpa using ho
      exact hi

/-- **Every act keeps the accounts.** -/
theorem holds_of_does (h : x.Holds capacity) (hd : x.Does y) : y.Holds capacity := by
  cases hd with
  | nothing => exact h
  | sent t hh hr hroom =>
    apply h.by_hand { x.channel with queue := x.channel.queue ++ [t] } x.handles x.received [t] rfl
      h.senders (Channel.bounded_push hroom t) rfl
    intro _
    rw [← h.flows hr]
    exact (List.append_assoc _ _ _).symm
  | met t hh hr hc =>
    -- nothing can wait in a channel of this capacity
    have hq : x.channel.queue = [] :=
      List.length_eq_zero_iff.1 (Nat.le_zero.1 (h.bounded 0 hc))
    apply h.by_hand x.channel x.handles (x.received ++ [t]) [t] rfl h.senders h.bounded rfl
    intro _
    rw [← h.flows hr, hq, List.append_nil, List.append_nil]
  | received t ts hr hq =>
    have hflows : x.received ++ [t] ++ ts = x.sent.map (·.token) ++ [] := by
      rw [← h.flows hr, hq, List.append_assoc, List.append_nil, List.singleton_append]
    have hx := h.by_hand { x.channel with queue := ts } x.handles (x.received ++ [t]) [] rfl
      h.senders (Channel.bounded_pop h.bounded hq) rfl fun _ => hflows
    simpa using hx
  | cloned hh =>
    rw [h.cloneSender hh]
    have hs : x.channel.senders + 1 = x.handles + 1 + x.jobs.countP (·.result?.isNone) := by
      rw [h.senders]
      omega
    have hx := h.by_hand { x.channel with senders := x.channel.senders + 1 } (x.handles + 1)
      x.received [] rfl hs h.bounded rfl fun hr => by rw [h.flows hr, List.append_nil]
    simpa using hx
  | dropped hh =>
    have hs : x.channel.senders - 1 = x.handles - 1 + x.jobs.countP (·.result?.isNone) := by
      rw [h.senders]
      omega
    have hx := h.by_hand x.channel.dropSender (x.handles - 1) x.received [] rfl hs h.bounded rfl
      fun hr => by rw [← h.flows hr, List.append_nil]; rfl
    simpa using hx
  | left =>
    refine ⟨h.capacity, h.senders, fun n _ => Nat.zero_le n, ?_, ?_, h.origins⟩
    · intro hr
      cases hr
    · intro i job hj
      obtain ⟨hfit, ho⟩ := h.owes i job hj
      exact ⟨hfit, ho.gone⟩
  | scanned text hfit hr hb =>
    exact h.join { x.channel with queue := x.channel.queue ++ tokenize text }
      ⟨text, .finished (.ok ())⟩ (tokenize text) hfit rfl rfl (hb h.bounded) rfl (fun _ => rfl)
      (.inl ⟨rfl, rfl⟩)
  | refused text hfit hr =>
    -- a text has a token, and that is refused
    obtain ⟨t, us, ht⟩ := List.exists_cons_of_ne_nil (Channel.tokenize_ne_nil hfit)
    have hx := h.join x.channel ⟨text, .finished (.error .sinkClosed)⟩ [] hfit rfl rfl h.bounded rfl
      (fun _ => (List.append_nil _).symm) (.inr ⟨rfl, hr, t, us, ht⟩)
    simpa using hx
  | spawned text hfit hh =>
    obtain ⟨hstops, hout, hoff⟩ := Channel.offers_ofText hfit
    rw [h.cloneSender hh]
    have hx := h.join { x.channel with senders := x.channel.senders + 1 }
      ⟨text, .scanning (.ofFeed (.ofText text) .default)⟩ [] hfit rfl rfl h.bounded rfl
      (fun _ => (List.append_nil _).symm) ⟨hstops, hout, hoff.symm⟩
    simpa using hx
  | worked i job us q hj hg => exact h.resume hj hg

/-- **What has been sent stays sent, and scans keep their texts.** -/
theorem grows_of_does (hd : x.Does y) :
    x.sent <+: y.sent ∧ x.jobs.map (·.text) <+: y.jobs.map (·.text) := by
  cases hd with
  | sent t => exact ⟨List.prefix_append _ _, List.prefix_refl _⟩
  | met t => exact ⟨List.prefix_append _ _, List.prefix_refl _⟩
  | scanned text =>
    rw [List.map_append]
    exact ⟨List.prefix_append _ _, List.prefix_append _ _⟩
  | refused text =>
    rw [List.map_append]
    exact ⟨List.prefix_refl _, List.prefix_append _ _⟩
  | spawned text =>
    rw [List.map_append]
    exact ⟨List.prefix_refl _, List.prefix_append _ _⟩
  | worked i job us q hj =>
    refine ⟨List.prefix_append _ _, ?_⟩
    obtain ⟨hi, rfl⟩ := List.getElem?_eq_some_iff.1 hj
    -- the text set in its place is the one that was there
    have hself : x.jobs.map (·.text) = (x.jobs.map (·.text)).set i x.jobs[i].text := by
      rw [← List.map_set, List.set_getElem_self]
    show _ <+: (x.jobs.set i _).map _
    rw [List.map_set]
    exact hself ▸ List.prefix_refl _
  | _ => exact ⟨List.prefix_refl _, List.prefix_refl _⟩

/-- **When the receiver has gone it does not come back, and nothing is sent any more.** -/
theorem closed_of_does (hd : x.Does y) (hr : x.channel.receiving = false) :
    y.channel.receiving = false ∧ y.sent = x.sent := by
  cases hd with
  | nothing => exact ⟨hr, rfl⟩
  | sent t _ h => rw [hr] at h; cases h
  | met t _ h => rw [hr] at h; cases h
  | received t ts h => rw [hr] at h; cases h
  | cloned => exact ⟨x.channel.receiving_cloneSender.trans hr, rfl⟩
  | dropped => exact ⟨hr, rfl⟩
  | left => exact ⟨rfl, rfl⟩
  | scanned text _ h => rw [hr] at h; cases h
  | refused text => exact ⟨hr, rfl⟩
  | spawned text => exact ⟨x.channel.receiving_cloneSender.trans hr, rfl⟩
  | worked i job us q hj hg =>
    have hs := Pipeline.shares_of_goes rfl rfl hg
    obtain rfl := hs.closed hr
    exact ⟨hs.receiving.trans hr, List.append_nil _⟩

/-! ### What runs preserve -/

theorem holds_of_follow (hfit : ∀ a ∈ as, a.Fits) (h : x.Holds capacity)
    (hf : x.follow? as = some y) : y.Holds capacity := by
  induction as generalizing x with
  | nil =>
    obtain rfl := Option.some.inj hf
    exact h
  | cons a as ih =>
    obtain ⟨z, hz, hf⟩ := follow?_cons.1 hf
    obtain ⟨ha, has⟩ := List.forall_mem_cons.1 hfit
    exact ih has (holds_of_does h (does_of_act ha hz)) hf

theorem grows_of_follow (hfit : ∀ a ∈ as, a.Fits) (hf : x.follow? as = some y) :
    x.sent <+: y.sent ∧ x.jobs.map (·.text) <+: y.jobs.map (·.text) := by
  induction as generalizing x with
  | nil =>
    obtain rfl := Option.some.inj hf
    exact ⟨List.prefix_refl _, List.prefix_refl _⟩
  | cons a as ih =>
    obtain ⟨z, hz, hf⟩ := follow?_cons.1 hf
    obtain ⟨ha, has⟩ := List.forall_mem_cons.1 hfit
    obtain ⟨h1, h2⟩ := grows_of_does (does_of_act ha hz)
    obtain ⟨h3, h4⟩ := ih has hf
    exact ⟨h1.trans h3, h2.trans h4⟩

theorem closed_of_follow (hfit : ∀ a ∈ as, a.Fits) (hr : x.channel.receiving = false)
    (hf : x.follow? as = some y) : y.channel.receiving = false ∧ y.sent = x.sent := by
  induction as generalizing x with
  | nil =>
    obtain rfl := Option.some.inj hf
    exact ⟨hr, rfl⟩
  | cons a as ih =>
    obtain ⟨z, hz, hf⟩ := follow?_cons.1 hf
    obtain ⟨ha, has⟩ := List.forall_mem_cons.1 hfit
    obtain ⟨h1, h2⟩ := closed_of_does (does_of_act ha hz) hr
    obtain ⟨h3, h4⟩ := ih has h1 hf
    exact ⟨h3, h4.trans h2⟩

end Exchange

end ParenLex
