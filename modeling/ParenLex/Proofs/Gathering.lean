import ParenLex.Proofs.Exchange

/-!
# What a shared channel comes to

However its producers and its receiver act, a channel that several producers share loses no token
and mixes up none, ends only when all producers have gone, and is closed for all of them once the
receiver has gone.

* `exists_end`: a scan without a receiver comes to its end.
* `gathering`: what holds after any acts.
-/

namespace ParenLex.Exchange

variable {x y : Exchange} {as bs : List Act} {capacity : Option Nat} {i : Nat} {job : Job}
  {text : String}

/-- **Nothing is lost on the way**: what the receiver has and what waits for it are the tokens sent,
in their order. No more wait than the channel holds, and only where so many do has a sender to wait,
one held by hand or that of a scan. The receiver sees the end when nothing waits and all senders have
gone, those of scans among them. The tokens of a scan are sent in their order, and all of them if it
ends well, which it does unless it is refused one. -/
structure Gathers (capacity : Option Nat) (x : Exchange) : Prop where
  received : x.channel.receiving = true →
    x.received ++ x.channel.queue = x.sent.map (·.token)
  bounded : ∀ n, capacity = some n → x.channel.queue.length ≤ n
  waits : ∀ t, x.handles ≠ 0 → x.channel.receiving = true →
    (x.act? (.emit t) = none ↔ ∃ n, capacity = some n ∧ x.channel.queue.length = n)
  stays : ∀ i job t s, x.jobs[i]? = some job → job.producer = .offering t s →
    x.channel.receiving = true →
      (x.act? (.send i) = none ↔ ∃ n, capacity = some n ∧ x.channel.queue.length = n)
  ends : x.channel.receive.1 = .ended ↔ x.channel.receiving = true ∧ x.channel.queue = [] ∧
    x.handles = 0 ∧ ∀ job ∈ x.jobs, job.result?.isSome = true
  scans : ∀ i job, x.jobs[i]? = some job →
    x.sentBy i <+: tokenize job.text ∧ (x.sentBy i).Sublist (x.sent.map (·.token))
  results : ∀ i job r, x.jobs[i]? = some job → job.result? = some r →
    x.sentBy i = tokenize job.text ∧ r = .ok () ∨
    x.sentBy i ≠ tokenize job.text ∧ r = .error .sinkClosed ∧ x.channel.receiving = false

/-- **A scan with nothing in between sends its tokens as one block**, be it run at once or begun and
followed to its good end by acts that send no others. -/
structure Blocks (x : Exchange) : Prop where
  whole : ∀ text y, text.utf8ByteSize ≤ counterMax → x.channel.receiving = true →
    x.act? (.scan text) = some y → y.jobs = x.jobs ++ [⟨text, .finished (.ok ())⟩] ∧
      y.sent = x.sent ++ (tokenize text).map (Sending.mk (some x.jobs.length))
  spawned : ∀ text bs y job, text.utf8ByteSize ≤ counterMax → (∀ b ∈ bs, b.Fits) →
    x.follow? (.spawn text :: bs) = some y →
    (∀ s ∈ y.sent.drop x.sent.length, s.origin = some x.jobs.length) →
    y.jobs[x.jobs.length]? = some job → job.result? = some (.ok ()) →
    y.sent = x.sent ++ (tokenize text).map (Sending.mk (some x.jobs.length))

/-- **A channel without a receiver is closed for all**: nothing is sent any more, by hand or by a
scan, every scan comes to an end, and it reports that the channel is closed, unless it had no token
left to send. -/
structure Closed (x : Exchange) : Prop where
  emits : x.channel.senders ≠ 0 → ∀ t, (x.channel.emit t).1 = .closed
  scan : x.channel.senders ≠ 0 → ∀ text : String, text.utf8ByteSize ≤ counterMax →
    (x.channel.scan text).1 = .closed ∧
      ((Scan.ofFeed (.ofText text) .default).run Channel.sink x.channel.cloneSender).result =
        .error .sinkClosed
  sends : ∀ bs y, (∀ b ∈ bs, b.Fits) → x.follow? bs = some y →
    y.channel.receiving = false ∧ y.sent = x.sent
  results : ∀ bs y i job r, (∀ b ∈ bs, b.Fits) → x.follow? bs = some y → y.jobs[i]? = some job →
    job.result? = some r → x.jobs.length ≤ i ∨ x.sentBy i ≠ tokenize job.text →
      r = .error .sinkClosed
  scans : ∀ i job, x.jobs[i]? = some job → ∃ bs y job', (∀ b ∈ bs, b = .turn i ∨ b = .send i) ∧
    x.follow? bs = some y ∧ y.jobs[i]? = some job' ∧ job'.result?.isSome = true

/-! ### Scans -/

/-- A scan that has ended has sent all its tokens, or was refused one. -/
theorem Holds.result (h : x.Holds capacity) (hj : x.jobs[i]? = some job)
    {r : Except ScanError Unit} (hr : job.result? = some r) :
    x.sentBy i = tokenize job.text ∧ r = .ok () ∨
    x.sentBy i ≠ tokenize job.text ∧ r = .error .sinkClosed ∧ x.channel.receiving = false := by
  obtain ⟨-, ho⟩ := h.owes i job hj
  unfold Job.result? at hr
  split at hr
  · next r' hp =>
    obtain rfl := Option.some.inj hr
    rw [hp] at ho
    exact ho.result
  · cases hr

/-- The end is seen when nothing waits and nobody is left to send. -/
theorem Holds.ended_iff (h : x.Holds capacity) : x.channel.receive.1 = .ended ↔
    x.channel.receiving = true ∧ x.channel.queue = [] ∧ x.handles = 0 ∧
      ∀ job ∈ x.jobs, job.result?.isSome = true := by
  have hs : x.channel.senders = 0 ↔ x.handles = 0 ∧ ∀ job ∈ x.jobs, job.result?.isSome = true := by
    rw [h.senders, Nat.add_eq_zero_iff, List.countP_eq_zero]
    simp [Option.isSome_iff_ne_none]
  rw [← hs]
  rcases x.channel.receive_cases with
    ⟨hr, he⟩ | ⟨t, ts, hr, hq, he⟩ | ⟨hr, hq, hn, he⟩ | ⟨hr, hq, hn, he⟩
  · rw [he, hr]
    simp
  · rw [he, hq]
    simp
  · rw [he, hr, hq, hn]
    simp
  · rw [he]
    simp [hn]

/-- A channel without room holds as many tokens as it can. -/
theorem Holds.hasRoom_iff (h : x.Holds capacity) : x.channel.hasRoom = false ↔
    ∃ n, capacity = some n ∧ x.channel.queue.length = n := by
  unfold Channel.hasRoom
  rw [h.capacity]
  cases hc : capacity with
  | none => simp
  | some n =>
    have hle := h.bounded n (h.capacity.trans hc)
    simp only [Option.all_some, decide_eq_false_iff_not, Option.some.injEq, exists_eq_left']
    omega

/-- A scan that is still going has a sender. -/
theorem Holds.senders_ne_zero (h : x.Holds capacity) (hj : x.jobs[i]? = some job)
    (hn : job.result? = none) : x.channel.senders ≠ 0 := by
  have hpos : 0 < x.jobs.countP (·.result?.isNone) :=
    List.countP_pos_iff.2 ⟨job, List.mem_of_getElem? hj, by rw [hn]; rfl⟩
  rw [h.senders]
  omega

/-- A sender by hand has to wait where there is no room. -/
theorem Holds.emit_iff (h : x.Holds capacity) (t : Token) (hh : x.handles ≠ 0)
    (hr : x.channel.receiving = true) : x.act? (.emit t) = none ↔ x.channel.hasRoom = false := by
  have hs : x.channel.senders ≠ 0 := by
    rw [h.senders]
    omega
  simp only [act?, emit?, if_neg hh, Channel.emit_of_receiving hs hr]
  cases x.channel.hasRoom <;> simp

/-- The sender of a scan has to wait there as well. -/
theorem Holds.send_iff (h : x.Holds capacity) {t : Token} {s : Scan} (hj : x.jobs[i]? = some job)
    (hp : job.producer = .offering t s) (hr : x.channel.receiving = true) :
    x.act? (.send i) = none ↔ x.channel.hasRoom = false := by
  have hs := h.senders_ne_zero hj (by simp [Job.result?, hp])
  simp only [act?, work?, hj, Option.map_eq_none_iff, Pipeline.move?, Pipeline.send, pipeline, hp,
    Channel.emit_of_receiving hs hr]
  cases x.channel.hasRoom <;> simp

theorem gathers_of_holds (h : x.Holds capacity) : x.Gathers capacity where
  received := h.flows
  bounded n hn := h.bounded n (h.capacity.trans hn)
  waits t hh hr := (h.emit_iff t hh hr).trans h.hasRoom_iff
  stays _ _ _ _ hj hp hr := (h.send_iff hj hp hr).trans h.hasRoom_iff
  ends := h.ended_iff
  scans _ _ hj := by
    obtain ⟨-, ho⟩ := h.owes _ _ hj
    exact ⟨ho.passed_prefix, List.Sublist.map _ List.filter_sublist⟩
  results _ _ _ hj hr := h.result hj hr

/-! ### Blocks -/

/-- Where nobody else sends, what has been sent is what one producer has sent. -/
theorem sent_of_alone {o : Option Nat} {ss rs : List Sending} (hpre : ss <+: rs)
    (hall : ∀ s ∈ rs.drop ss.length, s.origin = o) (hnil : Sending.tokensOf o ss = []) :
    rs = ss ++ (Sending.tokensOf o rs).map (Sending.mk o) := by
  obtain ⟨new, rfl⟩ := hpre
  rw [List.drop_left] at hall
  have hnew : (Sending.tokensOf o new).map (Sending.mk o) = new := by
    rw [Sending.tokensOf, List.filter_eq_self.2 (by simpa using hall), List.map_map]
    conv_rhs => rw [← List.map_id new]
    apply List.map_congr_left
    intro s hs
    show Sending.mk o s.token = s
    rw [← hall s hs]
  rw [Sending.tokensOf_append, hnil, List.nil_append, hnew]

/-- A scan run at once into a channel with a receiver adds its tokens and is over. -/
theorem scan_of_act (hfit : text.utf8ByteSize ≤ counterMax) (hr : x.channel.receiving = true)
    (hy : x.act? (.scan text) = some y) : y.jobs = x.jobs ++ [⟨text, .finished (.ok ())⟩] ∧
      y.sent = x.sent ++ (tokenize text).map (Sending.mk (some x.jobs.length)) := by
  simp only [act?, scan?] at hy
  split at hy
  · cases hy
  · rcases x.channel.scan_cases hfit with ⟨-, he⟩ | ⟨-, hn, -⟩ | ⟨-, he, -⟩ | ⟨-, he⟩
    · rw [he] at hy
      cases hy
    · rw [hr] at hn
      cases hn
    · rw [he] at hy
      obtain rfl := Option.some.inj hy
      dsimp only
      rw [List.drop_left]
      exact ⟨rfl, rfl⟩
    · rw [he] at hy
      cases hy

/-- A scan begun goes by the next number, and keeps its text. -/
theorem text_of_spawn (hbs : ∀ b ∈ bs, b.Fits) (hy : x.follow? (.spawn text :: bs) = some y)
    (hj : y.jobs[x.jobs.length]? = some job) : job.text = text := by
  obtain ⟨z, hz, hf⟩ := follow?_cons.1 hy
  have hjobs : z.jobs = x.jobs ++ [⟨text, .scanning (.ofFeed (.ofText text) .default)⟩] := by
    simp only [act?] at hz
    split at hz
    · cases hz
    · obtain rfl := Option.some.inj hz
      rfl
  have hlt : x.jobs.length < (z.jobs.map (·.text)).length := by
    rw [hjobs]
    simp
  have hkept := List.prefix_iff_getElem?.1 (grows_of_follow hbs hf).2 x.jobs.length hlt
  simpa [hj, hjobs] using hkept

theorem blocks_of_holds (h : x.Holds capacity) : x.Blocks where
  whole _ _ hfit hr hy := scan_of_act hfit hr hy
  spawned text bs y job hfit hbs hy halone hj hr := by
    have hfits : ∀ b ∈ Act.spawn text :: bs, b.Fits := List.forall_mem_cons.2 ⟨hfit, hbs⟩
    have hhold := holds_of_follow hfits h hy
    have hblock := sent_of_alone (grows_of_follow hfits hy).1 halone (h.sentBy_of_le le_rfl)
    rcases hhold.result hj hr with ⟨hall, -⟩ | ⟨-, hres, -⟩
    · rw [text_of_spawn hbs hy hj] at hall
      rw [← hall]
      exact hblock
    · cases hres

/-! ### Without a receiver -/

/-- A scan that has not ended can move on without a receiver. -/
theorem Holds.exists_move (h : x.Holds capacity) (hr : x.channel.receiving = false)
    (hj : x.jobs[i]? = some job) (hn : job.result? = none) :
    ∃ m q, (m = .turn ∨ m = .send) ∧ (x.pipeline job.producer).move? m = some q := by
  cases hp : job.producer with
  | scanning s =>
    obtain ⟨q, hq⟩ := Pipeline.exists_turn (p := x.pipeline (.scanning s)) rfl
    exact ⟨.turn, q, .inl rfl, hq⟩
  | finished r => simp [Job.result?, hp] at hn
  | offering t s =>
    have hs := h.senders_ne_zero hj hn
    have he := Channel.emit_of_gone hs hr t
    refine ⟨.send, (x.pipeline (.offering t s)).finish (.error .sinkClosed), .inr rfl, ?_⟩
    simp only [Pipeline.move?, Pipeline.send, pipeline, he]

/-- An act of the scan makes this move, and lowers its budget. -/
theorem Holds.exists_act (h : x.Holds capacity) (hr : x.channel.receiving = false)
    (hj : x.jobs[i]? = some job) (hn : job.result? = none) :
    ∃ a y job', (a = .turn i ∨ a = .send i) ∧ x.act? a = some y ∧ x.Does y ∧
      y.jobs[i]? = some job' ∧
      (y.pipeline job'.producer).budget < (x.pipeline job.producer).budget := by
  obtain ⟨m, q, hm, hq⟩ := h.exists_move hr hj hn
  have hgoes := Pipeline.goes_of_move hq
  have hdoes := Does.worked i job _ q hj hgoes
  have hwork : x.work? i m = some (x.resume i job ((x.pipeline job.producer).passes m) q) := by
    simp only [work?, hj, hq, Option.map_some]
  have hi := (List.getElem?_eq_some_iff.1 hj).1
  have hbudget : (x.pipeline q.producer).producerBudget + q.channel.queue.length +
      (!!q.channel.receiving).toNat < (x.pipeline job.producer).budget := by
    refine lt_of_le_of_lt ?_ (Pipeline.budget_of_goes hgoes)
    -- nobody is there to receive, and so nobody to leave
    rw [show q.channel.receiving = false from (closed_of_does hdoes hr).1]
    exact Nat.le_add_right _ _
  rcases hm with rfl | rfl
  · exact ⟨.turn i, _, _, .inl rfl, hwork, hdoes, List.getElem?_set_self hi, hbudget⟩
  · exact ⟨.send i, _, _, .inr rfl, hwork, hdoes, List.getElem?_set_self hi, hbudget⟩

/-- **Without a receiver a scan comes to its end**, by moves of its own. The induction is on its
budget. -/
theorem exists_end (h : x.Holds capacity) (hr : x.channel.receiving = false)
    (hj : x.jobs[i]? = some job) : ∃ bs y job', (∀ b ∈ bs, b = .turn i ∨ b = .send i) ∧
      x.follow? bs = some y ∧ y.jobs[i]? = some job' ∧ job'.result?.isSome = true := by
  generalize hb : (x.pipeline job.producer).budget = n
  induction n using Nat.strong_induction_on generalizing x job with
  | _ n ih =>
    cases hres : job.result? with
    | some r => exact ⟨[], x, job, by simp, rfl, hj, by rw [hres]; rfl⟩
    | none =>
      obtain ⟨a, z, job', ha, hz, hd, hj', hlt⟩ := h.exists_act hr hj hres
      rw [hb] at hlt
      have hr' := (closed_of_does hd hr).1
      obtain ⟨bs, y, job'', hbs, hf, hy⟩ := ih _ hlt (holds_of_does h hd) hr' hj' rfl
      exact ⟨a :: bs, y, job'', List.forall_mem_cons.2 ⟨ha, hbs⟩, follow?_cons.2 ⟨z, hz, hf⟩, hy⟩

theorem closed_of_holds (h : x.Holds capacity) (hr : x.channel.receiving = false) :
    x.Closed where
  emits hs t := by rw [Channel.emit_of_gone hs hr]
  scan hs text hfit := by
    rw [Channel.scan_of_gone hfit hs hr]
    exact ⟨rfl, Channel.run_of_closed hfit (by rwa [Channel.receiving_cloneSender])⟩
  sends bs y hbs hy := closed_of_follow hbs hr hy
  results bs y i job r hbs hy hj hres hdue := by
    have hhold := holds_of_follow hbs h hy
    have hsent : y.sentBy i = x.sentBy i := congrArg _ (closed_of_follow hbs hr hy).2
    rcases hhold.result hj hres with ⟨hall, -⟩ | ⟨-, herr, -⟩
    · -- a scan with no token left to send was there before, and had none left then
      rw [hsent] at hall
      rcases hdue with hnew | hdue
      · rw [h.sentBy_of_le hnew] at hall
        exact absurd hall.symm (Channel.tokenize_ne_nil (hhold.owes i job hj).1)
      · exact absurd hall hdue
    · exact herr
  scans i job hj := exists_end h hr hj

/-- **One channel shared by several producers loses nothing and ends only when all have gone.** -/
theorem gathering (capacity : Option Nat) (hfit : ∀ a ∈ as, a.Fits)
    (h : (start capacity).follow? as = some x) :
    x.Gathers capacity ∧ x.Blocks ∧ (x.channel.receiving = false → x.Closed) := by
  have hhold := holds_of_follow hfit (holds_start capacity) h
  exact ⟨gathers_of_holds hhold, blocks_of_holds hhold, closed_of_holds hhold⟩

/-- Two scans and a sender by hand take turns at a channel with room for one token; a third scan
comes when the receiver has gone. -/
theorem gathering_turns :
    let t : Token := ⟨.identifier, "b", ⟨1, 0, 0⟩⟩
    let before : List Act := [.spawn "()", .turn 0, .turn 0, .send 0, .receive, .emit t, .turn 0,
      .turn 0, .receive, .send 0, .turn 0, .receive, .turn 0, .turn 0, .send 0, .turn 0, .receive,
      .scan ""]
    let after : List Act := before ++ [.dropReceiver, .scan "()"]
    (∀ a ∈ after, a.Fits) ∧
      (∃ x, (start (some 1)).follow? before = some x ∧
        x.received ++ x.channel.queue = x.sent.map (·.token) ∧
        x.sentBy 0 = tokenize "()" ∧ x.sentBy 1 = tokenize "" ∧ x.act? (.emit t) = none) ∧
      ∃ y, (start (some 1)).follow? after = some y ∧ (y.channel.emit t).1 = .closed ∧
        ∃ job, y.jobs[2]? = some job ∧ job.result? = some (.error .sinkClosed) := by
  intro t before after
  have hafter : ∀ a ∈ after, a.Fits := by
    have hfit : "()".utf8ByteSize ≤ counterMax := by decide
    simp [after, before, Act.Fits, hfit]
  have hbefore : ∀ a ∈ before, a.Fits := fun a ha => hafter a (List.mem_append_left _ ha)
  obtain ⟨x, hx, hr, hh, hq, ⟨j₀, hj₀, ht₀, hr₀⟩, j₁, hj₁, ht₁, hr₁⟩ :
      ∃ x ∈ (start (some 1)).follow? before,
        x.channel.receiving = true ∧ x.handles = 1 ∧ x.channel.queue.length = 1 ∧
        (∃ j ∈ x.jobs[0]?, j.text = "()" ∧ j.result? = some (.ok ())) ∧
        ∃ j ∈ x.jobs[1]?, j.text = "" ∧ j.result? = some (.ok ()) := by decide +kernel
  obtain ⟨y, hy, hry, hs, j₂, hj₂, hr₂, hn⟩ :
      ∃ y ∈ (start (some 1)).follow? after, y.channel.receiving = false ∧ y.channel.senders = 1 ∧
        ∃ j ∈ y.jobs[2]?, j.result?.isSome = true ∧ y.sentBy 2 ≠ tokenize j.text := by
    decide +kernel
  obtain ⟨hx', -, -⟩ := gathering (some 1) hbefore hx
  obtain ⟨-, -, hclosed⟩ := gathering (some 1) hafter hy
  obtain ⟨r, hr₂⟩ := Option.isSome_iff_exists.1 hr₂
  have h₀ := hx'.results 0 j₀ _ hj₀ hr₀
  have h₁ := hx'.results 1 j₁ _ hj₁ hr₁
  have hwait := (hx'.waits t (by omega) hr).2 ⟨1, rfl, hq⟩
  have hrefused := (hclosed hry).results [] y 2 j₂ r (by simp) rfl hj₂ hr₂ (.inr hn)
  refine ⟨hafter, ⟨x, hx, hx'.received hr, ?_, ?_, hwait⟩, y, hy, ?_, j₂, hj₂, ?_⟩
  · simpa [ht₀] using h₀
  · simpa [ht₁] using h₁
  · exact (hclosed hry).emits (by omega) t
  · rw [hr₂, hrefused]

end ParenLex.Exchange
