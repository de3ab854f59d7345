import ParenLex.Proofs.Delivery

/-!
# What is asked of a feed

Reading takes a feed from one state to another by requests for a byte, each with an answer. A
request goes beyond the bytes delivered when its answer is none of them: a failure is met, or the
end, exactly by such a request.

* `not_beyond_of_within`: requests that a failed read answers are not to be had without it.
* `Requests.failed_congr`: which failed reads are met between two feeds.
* `chars_of_append`: bytes after a text that begin with no character leave the characters those of
  the text.
* `failure_of_runsOut`, `failure_of_not_runsOut`: the failed read is met exactly where the
  characters run out of bytes.
-/

namespace ParenLex

namespace Utf8

/-- What is read of bytes that begin with no character: the first, and the continuation bytes right
after it, no more than it announces. -/
def broken : List UInt8 → List UInt8
  | [] => []
  | lead :: bs => lead :: (bs.take (width lead - 1)).takeWhile isContinuation

/-- Whether another byte is asked for after these: a first one, or one that the first announces. -/
def isOpen : List UInt8 → Bool
  | [] => true
  | lead :: bs => bs.length + 1 < width lead

end Utf8

namespace Feed

/-- **Requests lead from one feed to another**, each with its answer. -/
inductive Requests : Feed → List Pull → Feed → Prop
  | refl (f : Feed) : Requests f [] f
  | pull {f g : Feed} {ps : List Pull} : Requests f.pull.2 ps g → Requests f (f.pull.1 :: ps) g

/-- All requests from one feed to another are answered with a byte. -/
def Within (f g : Feed) : Prop := ∃ ps, Requests f ps g ∧ ∀ p ∈ ps, p.size = 1

/-- One of the requests from one feed to another asks for more bytes than there are. -/
def Beyond (f g : Feed) : Prop := ∃ ps, Requests f ps g ∧ ∃ p ∈ ps, p.size = 0

variable {f g h : Feed} {ps qs : List Pull} {p : Pull} {c : Char} {cs : List Char}
  {bs : List UInt8} {e : Option ReadError}

theorem Requests.trans (h1 : Requests f ps g) (h2 : Requests g qs h) :
    Requests f (ps ++ qs) h := by
  induction h1 with
  | refl => exact h2
  | pull _ ih => exact .pull (ih h2)

theorem Within.refl (f : Feed) : Within f f := ⟨[], .refl f, by simp⟩

theorem Within.trans (h1 : Within f g) (h2 : Within g h) : Within f h := by
  obtain ⟨ps, hp, h1⟩ := h1
  obtain ⟨qs, hq, h2⟩ := h2
  exact ⟨ps ++ qs, hp.trans hq, List.forall_mem_append.2 ⟨h1, h2⟩⟩

theorem Within.beyond (h1 : Within f g) (h2 : Beyond g h) : Beyond f h := by
  obtain ⟨ps, hp, -⟩ := h1
  obtain ⟨qs, hq, p, hm, h2⟩ := h2
  exact ⟨ps ++ qs, hp.trans hq, p, List.mem_append_right _ hm, h2⟩

theorem Requests.of_pull (hp : f.pull = (p, g)) : Requests f [p] g := by
  have hr : Requests f [f.pull.1] f.pull.2 := .pull (.refl _)
  rwa [hp] at hr

theorem within_of_byte {b : UInt8} (hp : f.pull = (.byte b, g)) : Within f g :=
  ⟨_, .of_pull hp, by simp [Pull.size]⟩

theorem beyond_of_pull (hp : f.pull = (p, g)) (h0 : p.size = 0) : Beyond f g :=
  ⟨_, .of_pull hp, p, List.mem_singleton_self p, h0⟩

/-! ### Failed reads are met once -/

/-- Bytes and entries of the script that are still there. -/
def weight (f : Feed) : Nat := f.size + f.items.length

theorem length_pullItems (stopped : Bool) (items : List Item) :
    (pullItems stopped items).2.items.length ≤ items.length ∧
      ∀ e, (pullItems stopped items).1 = .failed e →
        (pullItems stopped items).2.items.length < items.length := by
  fun_induction pullItems stopped items with
  | case1 => exact ⟨Nat.le_refl _, fun e h => by cases h⟩
  | case2 => exact ⟨Nat.le_succ _, fun e h => by cases h⟩
  | case3 => exact ⟨Nat.le_succ _, fun e h => by cases h⟩
  | case4 s e items he ih => exact ⟨Nat.le_succ_of_le ih.1, fun e h => Nat.lt_succ_of_lt (ih.2 e h)⟩
  | case5 s e items he => exact ⟨Nat.le_succ _, fun e h => Nat.lt_succ_self _⟩
  | case6 s items ih => exact ⟨Nat.le_succ_of_le ih.1, fun e h => Nat.lt_succ_of_lt (ih.2 e h)⟩

theorem length_pull (f : Feed) : f.pull.2.items.length ≤ f.items.length ∧
    ∀ e, f.pull.1 = .failed e → f.pull.2.items.length < f.items.length := by
  unfold pull
  split
  · exact ⟨Nat.le_refl _, fun e h => by cases h⟩
  · exact length_pullItems f.stopped f.items

theorem weight_pull_le (f : Feed) : f.pull.2.weight ≤ f.weight := by
  have h1 := f.size_pull
  have h2 := f.length_pull.1
  unfold weight
  omega

/-- A request that is not answered by the end uses something up. -/
theorem weight_pull_lt (h : f.pull.1 ≠ .ended) : f.pull.2.weight < f.weight := by
  have h1 := f.size_pull
  have h2 := f.length_pull
  unfold weight
  cases hp : f.pull.1 with
  | byte b =>
    rw [hp] at h1
    simp only [Pull.size] at h1
    omega
  | ended => exact absurd hp h
  | failed e =>
    have := h2.2 e hp
    omega

theorem weight_le_of_requests (h : Requests f ps g) : g.weight ≤ f.weight := by
  induction h with
  | refl => exact Nat.le_refl _
  | pull _ ih => exact Nat.le_trans ih (weight_pull_le _)

/-- Before a failed read no request is answered by the end. -/
theorem pull_ne_ended {e : ReadError} (h : f.failure? = some e) : f.pull.1 ≠ .ended := by
  intro hp
  have := f.pulls_pull
  rw [hp] at this
  rw [this.2] at h
  cases h

/-- The same feed is not reached again before a failed read. -/
theorem eq_nil_of_requests {e : ReadError} (he : f.failure? = some e) (h : Requests f ps f) :
    ps = [] := by
  generalize hg : f = g at h
  cases h with
  | refl => rfl
  | pull h =>
    have h1 := weight_le_of_requests h
    have h2 := weight_pull_lt (pull_ne_ended (hg ▸ he))
    omega

/-- **Requests that are all answered with bytes do not meet a failed read**, by whichever requests
the feed is reached. -/
theorem not_beyond_of_within {e : ReadError} (he : f.failure? = some e) (h : Within f g) :
    ¬ Beyond f g := by
  obtain ⟨ps, hp, hb⟩ := h
  rintro ⟨qs, hq, q, hm, h0⟩
  suffices ∀ q ∈ qs, q.size = 1 by rw [this q hm] at h0; cases h0
  clear hm h0
  induction hp generalizing qs with
  | refl f =>
    rw [eq_nil_of_requests he hq]
    simp
  | @pull f g ps hp ih =>
    obtain ⟨hb1, hb⟩ := List.forall_mem_cons.1 hb
    have hfail : f.pull.2.failure? = some e := by
      have := f.pulls_pull
      cases hpull : f.pull.1 with
      | byte b => rw [hpull] at this; exact this.2.trans he
      | ended => rw [hpull] at hb1; cases hb1
      | failed e => rw [hpull] at hb1; cases hb1
    cases hq with
    | refl => simp
    | pull hq => exact List.forall_mem_cons.2 ⟨hb1, ih hfail hb _ hq⟩

/-- Of the requests that lead from a feed to two others, the ones are the first of the others. -/
theorem Requests.linear (h1 : Requests f ps g) (h2 : Requests f qs h) :
    (∃ rs, Requests g rs h ∧ qs = ps ++ rs) ∨ ∃ rs, Requests h rs g ∧ ps = qs ++ rs := by
  induction h1 generalizing qs with
  | refl => exact .inl ⟨qs, h2, rfl⟩
  | pull h1 ih =>
    cases h2 with
    | refl => exact .inr ⟨_, .pull h1, rfl⟩
    | pull h2 =>
      rcases ih h2 with ⟨rs, hr, rfl⟩ | ⟨rs, hr, rfl⟩
      · exact .inl ⟨rs, hr, rfl⟩
      · exact .inr ⟨rs, hr, rfl⟩

/-- No failed read is met on the way from a feed back to it. -/
theorem Requests.not_failed (h : Requests f ps f) (e : ReadError) : .failed e ∉ ps := by
  suffices ∀ k, Requests k ps f → k.weight ≤ f.weight → .failed e ∉ ps from this f h (Nat.le_refl _)
  clear h
  intro k h hk
  generalize hg : f = g at h hk
  induction h with
  | refl => simp
  | @pull k g ps h ih =>
    have h1 := weight_le_of_requests h
    have h2 := weight_pull_le k
    rw [List.mem_cons, not_or]
    refine ⟨fun he => ?_, ih hg (h2.trans hk)⟩
    have h3 := weight_pull_lt (f := k) (by rw [← he]; simp)
    omega

/-- **Which failed reads are met between two feeds** does not depend on the requests. -/
theorem Requests.failed_congr (h1 : Requests f ps g) (h2 : Requests f qs g) (e : ReadError) :
    .failed e ∈ ps ↔ .failed e ∈ qs := by
  rcases h1.linear h2 with ⟨rs, hr, rfl⟩ | ⟨rs, hr, rfl⟩
  · simp [hr.not_failed e]
  · simp [hr.not_failed e]

/-! ### Tails and characters -/

/-- A tail is cut short by the end of the bytes, which it then meets, or asks for bytes alone. -/
theorem tail_cases (f : Feed) (n : Nat) :
    (Within f (f.tail n).rest ∧ (f.tail n).failure = none ∧
      ¬ ((f.tail n).bytes = f.delivered ∧ (f.tail n).bytes.length < n)) ∨
    (Beyond f (f.tail n).rest ∧ (f.tail n).failure = f.failure? ∧
      (f.tail n).bytes = f.delivered ∧ (f.tail n).bytes.length < n) := by
  fun_induction tail f n with
  | case1 f => exact .inl ⟨.refl f, rfl, by simp⟩
  | case2 f n b g hp hb t ih =>
    obtain ⟨hd, hf⟩ := pulls_of_pull hp
    have hw := within_of_byte hp
    rw [hd]
    rcases ih with ⟨h1, h2, h3⟩ | ⟨h1, h2, h3, h4⟩
    · refine .inl ⟨hw.trans h1, h2, fun h => h3 ?_⟩
      exact ⟨(List.cons.inj h.1).2, Nat.lt_of_succ_lt_succ h.2⟩
    · exact .inr ⟨hw.beyond h1, h2.trans hf, congrArg (b :: ·) h3, Nat.succ_lt_succ h4⟩
  | case3 f n b g hp hb =>
    rw [(pulls_of_pull hp).1]
    exact .inl ⟨within_of_byte hp, rfl, by simp⟩
  | case4 f n g hp =>
    obtain ⟨hd, hf⟩ := pulls_of_pull hp
    exact .inr ⟨beyond_of_pull hp rfl, hf.symm, hd.symm, Nat.succ_pos n⟩
  | case5 f n e g hp =>
    obtain ⟨hd, hf⟩ := pulls_of_pull hp
    exact .inr ⟨beyond_of_pull hp rfl, hf.symm, hd.symm, Nat.succ_pos n⟩

/-- What comes after a tail and the byte that ended it has not been asked for. -/
theorem drop_tail (f : Feed) (n : Nat) :
    f.delivered.drop ((f.tail n).bytes.length + 1) <:+ (f.tail n).rest.delivered := by
  fun_induction tail f n with
  | case1 f => exact List.drop_suffix _ _
  | case2 f n b g hp hb t ih => rw [(pulls_of_pull hp).1]; exact ih
  | case3 f n b g hp hb => rw [(pulls_of_pull hp).1]; exact List.suffix_refl _
  | case4 f n g hp => rw [(pulls_of_pull hp).1]; exact List.nil_suffix
  | case5 f n e g hp => rw [(pulls_of_pull hp).1]; exact List.nil_suffix

theorem within_of_char (h : f.fetch = (.char c, g)) : Within f g := by
  obtain ⟨lead, rest, k, hp, -, hr, hn, rfl⟩ := lead_of_char h
  refine (within_of_byte hp).trans ?_
  rcases k.tail_cases (Utf8.width lead - 1) with ⟨hw, -, -⟩ | ⟨-, -, -, hlt⟩
  · exact hw
  · -- a character is as long as its lead byte announces
    rw [hr, hn] at hlt
    exact absurd hlt (Nat.lt_irrefl _)

/-- **Where no character comes, the bytes read are the first that make none**, and the end of the
bytes is met if they are all there are and more of them were asked for. -/
theorem ended_cases (h : f.fetch = (.ended bs e, g)) : bs = Utf8.broken f.delivered ∧
    f.delivered.drop (bs.length + 1) <:+ g.delivered ∧
    ((Within f g ∧ e = none ∧ ¬ (bs = f.delivered ∧ Utf8.isOpen bs = true)) ∨
      (Beyond f g ∧ e = f.failure? ∧ bs = f.delivered ∧ Utf8.isOpen bs = true)) := by
  rcases lead_of_ended h with ⟨rfl, hd, rfl, p, hp, h0⟩ | ⟨lead, k, hp, rfl, rfl, rfl⟩
  · rw [hd]
    exact ⟨rfl, List.nil_suffix, .inr ⟨beyond_of_pull hp h0, rfl, rfl, rfl⟩⟩
  · obtain ⟨hd, hf⟩ := pulls_of_pull hp
    have hw := within_of_byte hp
    rw [hd]
    refine ⟨by rw [bytes_tail]; rfl, k.drop_tail _, ?_⟩
    have hopen : Utf8.isOpen (lead :: (k.tail (Utf8.width lead - 1)).bytes) = true ↔
        (k.tail (Utf8.width lead - 1)).bytes.length < Utf8.width lead - 1 := by
      simp only [Utf8.isOpen, decide_eq_true_eq]
      omega
    rw [hopen]
    rcases k.tail_cases (Utf8.width lead - 1) with ⟨h1, h2, h3⟩ | ⟨h1, h2, h3, h4⟩
    · exact .inl ⟨hw.trans h1, h2, fun h => h3 ⟨(List.cons.inj h.1).2, h.2⟩⟩
    · exact .inr ⟨hw.beyond h1, h2.trans hf, congrArg (lead :: ·) h3, h4⟩

/-- A tail asks for no more bytes than it may have, and the failed read that it meets is the answer
to one of its requests. -/
theorem requests_tail (f : Feed) (n : Nat) : ∃ ps, Requests f ps (f.tail n).rest ∧
    ps.length ≤ n ∧ ∀ e, .failed e ∈ ps ↔ (f.tail n).failure = some e := by
  fun_induction tail f n with
  | case1 f => exact ⟨[], .refl f, Nat.le_refl 0, by simp⟩
  | case2 f n b g hp hb t ih =>
    obtain ⟨ps, h1, h2, h3⟩ := ih
    exact ⟨_, (Requests.of_pull hp).trans h1, Nat.succ_le_succ h2, by simpa using h3⟩
  | case3 f n b g hp hb => exact ⟨_, .of_pull hp, Nat.succ_pos n, by simp⟩
  | case4 f n g hp => exact ⟨_, .of_pull hp, Nat.succ_pos n, by simp⟩
  | case5 f n e g hp => exact ⟨_, .of_pull hp, Nat.succ_pos n, by simp [eq_comm]⟩

/-- **So is the one met where no character comes.** -/
theorem requests_of_ended (h : f.fetch = (.ended bs e, g)) : ∃ ps, Requests f ps g ∧
    ∀ x, .failed x ∈ ps ↔ e = some x := by
  rcases lead_of_ended h with ⟨rfl, hd, rfl, p, hp, h0⟩ | ⟨lead, k, hp, rfl, rfl, rfl⟩
  · refine ⟨[p], .of_pull hp, fun x => ?_⟩
    have hpull := pulls_of_pull hp
    cases p with
    | byte b => cases h0
    | ended => simp [hpull.2]
    | failed y => simp [hpull.2, eq_comm]
  · obtain ⟨ps, h1, -, h2⟩ := k.requests_tail (Utf8.width lead - 1)
    exact ⟨_, (Requests.of_pull hp).trans h1, by simpa using h2⟩

/-- Bytes begin with no character where none comes. -/
theorem ne_append_of_ended (h : f.fetch = (.ended bs e, g)) (c : Char) (rest : List UInt8) :
    f.delivered ≠ String.utf8EncodeChar c ++ rest := by
  intro hd
  obtain ⟨k, hk, -⟩ := fetch_of_delivered hd
  rw [h] at hk
  cases hk

/-- **Bytes after a text that begin with no character** leave the characters those of the text, and
what is read of them stands after these. -/
theorem chars_of_append (h : f.delivered = Utf8.encode cs ++ bs)
    (hb : ∀ c rest, bs ≠ String.utf8EncodeChar c ++ rest) :
    f.chars = cs ∧ f.ending.bytes = Utf8.broken bs := by
  obtain ⟨g, rfl, hc, he⟩ := exists_after h
  rw [hc, he]
  rcases hg : g.fetch with ⟨c | ⟨bs', e⟩, k⟩
  · exact absurd (delivered_of_char hg).1 (hb c _)
  · rw [chars_of_ended hg, ending_of_ended hg, List.append_nil]
    exact ⟨rfl, (ended_cases hg).1⟩

/-- Every feed delivers its characters and then bytes that begin with none. -/
theorem delivered_eq_append (f : Feed) : ∃ bs, f.delivered = Utf8.encode f.chars ++ bs ∧
    ∀ c rest, bs ≠ String.utf8EncodeChar c ++ rest := by
  fun_induction chars f with
  | case1 f c g h ih =>
    obtain ⟨bs, h1, h2⟩ := ih
    exact ⟨bs, by rw [(delivered_of_char h).1, h1]; simp, h2⟩
  | case2 f bs e g h => exact ⟨f.delivered, rfl, ne_append_of_ended h⟩

/-- **Feeds that deliver the same bytes** have the same characters, and the same after them. -/
theorem chars_congr (h : f.delivered = g.delivered) :
    f.chars = g.chars ∧ f.ending.bytes = g.ending.bytes := by
  obtain ⟨bs, hg, hb⟩ := g.delivered_eq_append
  obtain ⟨h1, h2⟩ := chars_of_append (h.trans hg) hb
  exact ⟨h1, h2.trans (chars_of_append hg hb).2.symm⟩

/-! ### Running out of bytes -/

/-- **The characters and what stands after them are all the bytes there are**, and another byte is
asked for to go on. -/
def RunsOut (f : Feed) : Prop :=
  f.delivered = Utf8.encode f.chars ++ f.ending.bytes ∧ Utf8.isOpen f.ending.bytes = true

theorem runsOut_of_char (h : f.fetch = (.char c, g)) : f.RunsOut ↔ g.RunsOut := by
  rw [RunsOut, RunsOut, chars_of_char h, ending_of_char h, (delivered_of_char h).1,
    Utf8.encode_cons, List.append_assoc, List.append_cancel_left_eq]

theorem runsOut_of_ended (h : f.fetch = (.ended bs e, g)) :
    f.RunsOut ↔ bs = f.delivered ∧ Utf8.isOpen bs = true := by
  rw [RunsOut, chars_of_ended h, ending_of_ended h, Utf8.encode_nil, List.nil_append, eq_comm]

/-- **The failed read is met where the characters run out of bytes.** -/
theorem failure_of_runsOut (h : f.RunsOut) : f.ending.failure = f.failure? := by
  fun_induction ending f with
  | case1 f c g hf ih =>
    exact (ih ((runsOut_of_char hf).1 h)).trans (delivered_of_char hf).2
  | case2 f bs e g hf =>
    rcases (ended_cases hf).2.2 with ⟨-, -, hn⟩ | ⟨-, he, -⟩
    · exact absurd ((runsOut_of_ended hf).1 h) hn
    · exact he

theorem failure_of_not_runsOut (h : ¬ f.RunsOut) : f.ending.failure = none := by
  fun_induction ending f with
  | case1 f c g hf ih => exact ih fun hg => h ((runsOut_of_char hf).2 hg)
  | case2 f bs e g hf =>
    rcases (ended_cases hf).2.2 with ⟨-, he, -⟩ | ⟨-, -, hb⟩
    · exact he
    · exact absurd ((runsOut_of_ended hf).2 hb) h

end Feed

end ParenLex
