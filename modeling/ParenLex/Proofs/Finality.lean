import ParenLex.Proofs.Index

/-!
# The end is final

A reader that has found the input at an end is done with its feed, whatever the feed would deliver
after it. It asks for no byte again and answers as it did, and the failed read that it has met, one
at most, stays with it until it is handed over, once.

* `Feed.requests_fetchAnswers`: the requests for a character, by their answers.
* `over_apply`: what an operation does at the end of the input.
* `apply_cases`: how a failed read is met.
* `end_final`: all of it, for whatever is done with the reader of a feed.
-/

namespace ParenLex

namespace Feed

/-- The failure that an answer brings. -/
def Pull.error? : Pull → Option ReadError
  | .failed e => some e
  | _ => none

/-- The answers to the requests that a tail makes. -/
def tailAnswers (f : Feed) : Nat → List Pull
  | 0 => []
  | n + 1 =>
    match f.pull with
    | (.byte b, g) => .byte b :: if Utf8.isContinuation b then g.tailAnswers n else []
    | (p, _) => [p]

/-- The answers to the requests for a character. -/
def fetchAnswers (f : Feed) : List Pull :=
  match f.pull with
  | (.byte lead, g) => .byte lead :: g.tailAnswers (Utf8.width lead - 1)
  | (p, _) => [p]

variable {f g : Feed} {cs : List Char} {c : Char} {bs : List UInt8} {e : Option ReadError}

theorem requests_tailAnswers (f : Feed) (n : Nat) :
    Requests f (f.tailAnswers n) (f.tail n).rest := by
  fun_induction tail f n with
  | case1 f => exact .refl f
  | case2 f n b g hp hb t ih =>
    rw [tailAnswers, hp]
    dsimp only
    rw [if_pos hb]
    exact (Requests.of_pull hp).trans ih
  | case3 f n b g hp hb =>
    rw [tailAnswers, hp]
    dsimp only
    rw [if_neg hb]
    exact .of_pull hp
  | case4 f n g hp =>
    rw [tailAnswers, hp]
    exact .of_pull hp
  | case5 f n e g hp =>
    rw [tailAnswers, hp]
    exact .of_pull hp

/-- **These are requests that lead to the feed after the character.** -/
theorem requests_fetchAnswers (f : Feed) : Requests f f.fetchAnswers f.fetch.2 := by
  rcases hp : f.pull with ⟨p, g⟩
  cases p with
  | byte lead =>
    have ht := (Requests.of_pull hp).trans (g.requests_tailAnswers (Utf8.width lead - 1))
    simp only [fetchAnswers, fetch, hp]
    split
    · exact ht
    · exact ht
  | ended =>
    simp only [fetchAnswers, fetch, hp]
    exact .of_pull hp
  | failed e =>
    simp only [fetchAnswers, fetch, hp]
    exact .of_pull hp

/-- A failure is the last answer that a tail gets, after the bytes of the tail. -/
theorem tailAnswers_cases (f : Feed) (n : Nat) :
    ((f.tail n).failure = none ∧ ∀ p ∈ f.tailAnswers n, p.error? = none) ∨
    ∃ e, (f.tail n).failure = some e ∧
      f.tailAnswers n = (f.tail n).bytes.map .byte ++ [.failed e] := by
  fun_induction tail f n with
  | case1 f => exact .inl ⟨rfl, by simp [tailAnswers]⟩
  | case2 f n b g hp hb t ih =>
    rw [tailAnswers, hp]
    dsimp only
    rw [if_pos hb]
    rcases ih with ⟨hn, hall⟩ | ⟨e, he, hans⟩
    · refine .inl ⟨hn, List.forall_mem_cons.2 ⟨rfl, hall⟩⟩
    · refine .inr ⟨e, he, ?_⟩
      rw [hans]
      rfl
  | case3 f n b g hp hb =>
    rw [tailAnswers, hp]
    dsimp only
    rw [if_neg hb]
    exact .inl ⟨rfl, by simp [Pull.error?]⟩
  | case4 f n g hp =>
    rw [tailAnswers, hp]
    exact .inl ⟨rfl, by simp [Pull.error?]⟩
  | case5 f n e g hp =>
    rw [tailAnswers, hp]
    exact .inr ⟨e, rfl, rfl⟩

/-- No failure is met on the way to a character. -/
theorem fetchAnswers_of_char (h : f.fetch = (.char c, g)) :
    ∀ p ∈ f.fetchAnswers, p.error? = none := by
  obtain ⟨lead, rest, k, hp, -, hr, hn, -⟩ := lead_of_char h
  simp only [fetchAnswers, hp]
  refine List.forall_mem_cons.2 ⟨rfl, ?_⟩
  rcases k.tailAnswers_cases (Utf8.width lead - 1) with ⟨-, hall⟩ | ⟨e, he, -⟩
  · exact hall
  · -- a tail that fails is shorter than its lead announces
    rcases k.tail_cases (Utf8.width lead - 1) with ⟨-, hnone, -⟩ | ⟨-, -, -, hlt⟩
    · rw [hnone] at he
      cases he
    · rw [hr] at hlt
      omega

/-- **Where none comes, a failure is the last answer**, after the bytes read. -/
theorem fetchAnswers_of_ended (h : f.fetch = (.ended bs e, g)) :
    (e = none ∧ ∀ p ∈ f.fetchAnswers, p.error? = none) ∨
    ∃ x, e = some x ∧ f.fetchAnswers = bs.map .byte ++ [.failed x] := by
  rcases hp : f.pull with ⟨p, k⟩
  cases p with
  | ended =>
    obtain ⟨⟨rfl, rfl⟩, rfl⟩ : ([] = bs ∧ none = e) ∧ k = g := by simpa [fetch, hp] using h
    exact .inl ⟨rfl, by simp [fetchAnswers, hp, Pull.error?]⟩
  | failed x =>
    obtain ⟨⟨rfl, rfl⟩, rfl⟩ : ([] = bs ∧ some x = e) ∧ k = g := by simpa [fetch, hp] using h
    exact .inr ⟨x, rfl, by simp [fetchAnswers, hp]⟩
  | byte b =>
    rcases lead_of_ended h with ⟨-, -, -, q, hq, h0⟩ | ⟨lead, j, hq, rfl, rfl, -⟩
    · rw [hp] at hq
      obtain ⟨rfl, -⟩ := Prod.mk.inj hq
      cases h0
    · simp only [fetchAnswers, hq]
      rcases j.tailAnswers_cases (Utf8.width lead - 1) with ⟨hn, hall⟩ | ⟨x, hx, hans⟩
      · exact .inl ⟨hn, List.forall_mem_cons.2 ⟨rfl, hall⟩⟩
      · refine .inr ⟨x, hx, ?_⟩
        rw [hans]
        rfl

theorem Fetches.failure? (h : Fetches f cs g) : f.failure? = g.failure? := by
  induction h with
  | refl => rfl
  | char _ hc ih => exact ih.trans (delivered_of_char hc).2.symm

end Feed

namespace Reader

open Feed (Pull)

/-! ### What operations ask and show -/

/-- The answers to the requests for the next character. None is made where a character has been
taken back, and none once the input has ended. -/
def nextAnswers (r : Reader) : List Pull :=
  match r.slot with
  | .putBack _ => []
  | _ =>
    match r.leftover with
    | some _ => []
    | none => r.feed.fetchAnswers

/-- The answers to the requests that an operation makes. -/
def asked (r : Reader) : Op → List Pull
  | .next | .peek => r.nextAnswers
  | .backup | .takeFailure => []

/-- The warnings that an operation logs, one for each failed read. -/
def warnings (r : Reader) (op : Op) : List ReadFailure :=
  (r.asked op).filterMap fun p => p.error?.map (⟨r.offset, ·⟩)

/-- The answer of an operation that asks for a character. -/
def shown (r : Reader) : Op → List (Option Char)
  | .next => [r.next.1]
  | .peek => [r.peek.1]
  | .backup | .takeFailure => []

/-- The answer of an operation that asks for the failure. -/
def taken (r : Reader) : Op → List (Option ReadError)
  | .takeFailure => [r.takeFailure.1]
  | _ => []

/-- What is to be seen of operations, one after another. -/
def trace {α : Type} (look : Reader → Op → List α) (r : Reader) : List Op → List α
  | [] => []
  | op :: ops => look r op ++ trace look (r.apply op) ops

variable {r k : Reader} {f : Feed} {op : Op} {w : ReadFailure} {bs : List UInt8}

theorem trace_append {α : Type} (look : Reader → Op → List α) (r : Reader) (ops later : List Op) :
    r.trace look (ops ++ later) = r.trace look ops ++ (r.after ops).trace look later := by
  induction ops generalizing r with
  | nil => rfl
  | cons op ops ih =>
    rw [List.cons_append, trace, ih, trace, List.append_assoc]
    rfl

/-- What holds of all that is to be seen, if each operation keeps `Inv` and shows nothing but `P`. -/
theorem forall_trace {α : Type} {look : Reader → Op → List α} {Inv : Reader → Prop} {P : α → Prop}
    (hkeep : ∀ k op, Inv k → Inv (k.apply op)) (hlook : ∀ k op, Inv k → ∀ a ∈ look k op, P a)
    (h : Inv r) (ops : List Op) : ∀ a ∈ r.trace look ops, P a := by
  induction ops generalizing r with
  | nil => simp [trace]
  | cons op ops ih =>
    intro a ha
    rcases List.mem_append.1 ha with ha | ha
    · exact hlook r op h a ha
    · exact ih (hkeep r op h) a ha

/-- Taking a character back leaves the feed alone, and what the reader keeps of its end. -/
theorem backup_keeps (r : Reader) : r.backup.feed = r.feed ∧ r.backup.leftover = r.leftover ∧
    r.backup.failure = r.failure := by
  unfold backup
  split
  · exact ⟨rfl, rfl, rfl⟩
  · exact ⟨rfl, rfl, rfl⟩

theorem drawn_apply (h : r.DrawnFrom f) (op : Op) : (r.apply op).DrawnFrom f := by
  cases op with
  | next => exact drawn_next h
  | peek => exact drawn_backup (drawn_next h)
  | backup => exact drawn_backup h
  | takeFailure => exact ⟨fun hl => ⟨rfl, (h.reading hl).2⟩, h.ended⟩

theorem drawn_after (h : r.DrawnFrom f) (ops : List Op) : (r.after ops).DrawnFrom f := by
  induction ops generalizing r with
  | nil => exact h
  | cons op ops ih => exact ih (drawn_apply h op)

/-- **How the next character comes**: without a request, or from the feed, if that does not end. -/
theorem next_cases (r : Reader) :
    (r.nextAnswers = [] ∧ r.next.2.feed = r.feed ∧ r.next.2.failure = r.failure) ∨
    (r.leftover = none ∧ r.nextAnswers = r.feed.fetchAnswers ∧
      r.next.2.feed = r.feed.fetch.2 ∧
      ((∃ c g, r.feed.fetch = (.char c, g) ∧ r.next.2.failure = r.failure) ∨
        ∃ bs e g, r.feed.fetch = (.ended bs e, g) ∧ r.next.1 = none ∧
          r.next.2.leftover = some bs ∧
          r.next.2.failure = (e.map (⟨r.offset, ·⟩)).or r.failure)) := by
  by_cases hs : ∃ c, r.slot = .putBack c
  · obtain ⟨c, hs⟩ := hs
    exact .inl (by simp [nextAnswers, next, hs])
  · obtain ⟨hn, ha⟩ : r.next = r.fetch ∧ r.nextAnswers =
        match r.leftover with | some _ => [] | none => r.feed.fetchAnswers := by
      unfold next nextAnswers
      cases hc : r.slot with
      | putBack c => exact absurd ⟨c, hc⟩ hs
      | empty => exact ⟨rfl, rfl⟩
      | taken c => exact ⟨rfl, rfl⟩
    rw [hn, ha, fetch]
    cases hl : r.leftover with
    | some bs => exact .inl ⟨rfl, rfl, rfl⟩
    | none =>
      refine .inr ⟨rfl, rfl, ?_⟩
      rcases hf : r.feed.fetch with ⟨c | ⟨bs, e⟩, g⟩
      · exact ⟨rfl, .inl ⟨c, g, rfl, rfl⟩⟩
      · exact ⟨rfl, .inr ⟨bs, e, g, rfl, rfl, rfl, rfl⟩⟩

/-- **The requests of an operation lead to the feed that it leaves.** -/
theorem requests_asked (r : Reader) (op : Op) :
    r.feed.Requests (r.asked op) (r.apply op).feed := by
  have hnext : r.feed.Requests (r.asked .next) r.next.2.feed := by
    rcases r.next_cases with ⟨hn, hfeed, -⟩ | ⟨-, ha, hfeed, -⟩
    · rw [asked, hn, hfeed]
      exact .refl _
    · rw [asked, ha, hfeed]
      exact r.feed.requests_fetchAnswers
  cases op with
  | next => exact hnext
  | peek =>
    have hb : (r.apply .peek).feed = r.next.2.feed := r.next.2.backup_keeps.1
    rw [hb]
    exact hnext
  | backup =>
    have hb : (r.apply .backup).feed = r.feed := r.backup_keeps.1
    rw [hb]
    exact .refl _
  | takeFailure => exact .refl _

theorem requests_trace (r : Reader) (ops : List Op) :
    r.feed.Requests (r.trace asked ops) (r.after ops).feed := by
  induction ops generalizing r with
  | nil => exact .refl _
  | cons op ops ih => exact (r.requests_asked op).trans (ih (r.apply op))

/-! ### At the end -/

/-- **The input has ended** for the reader. -/
structure Over (r : Reader) : Prop where
  slot : r.slot = .empty
  leftover : r.leftover ≠ none

/-- Where no character is handed out, the input has ended. -/
theorem over_of_shown (h : none ∈ r.shown op) : (r.apply op).Over := by
  have hnext : r.next.1 = none → r.next.2.Over := by
    intro hn
    refine ⟨by rw [slot_next, hn], ?_⟩
    unfold next fetch at hn ⊢
    split at hn
    · cases hn
    · split at hn
      · next bs hl => simp [hl]
      · split at hn
        · cases hn
        · simp
  have hback : r.next.2.Over → r.next.2.backup = r.next.2 := by
    intro ho
    rw [backup, ho.slot]
  cases op with
  | next => exact hnext (List.mem_singleton.1 h).symm
  | peek =>
    have ho := hnext (List.mem_singleton.1 h).symm
    show r.next.2.backup.Over
    rw [hback ho]
    exact ho
  | backup => cases h
  | takeFailure => cases h

/-- **At the end nothing is left to do** but to hand over the failure. -/
theorem over_apply (h : r.Over) (op : Op) :
    r.apply op = { r with failure := if op = .takeFailure then none else r.failure } := by
  obtain ⟨bs, hb⟩ := Option.ne_none_iff_exists'.1 h.leftover
  obtain ⟨feed, slot, offset, leftover, failure⟩ := r
  obtain rfl : slot = .empty := h.slot
  obtain rfl : leftover = some bs := hb
  cases op with
  | next => rfl
  | peek => rfl
  | backup => rfl
  | takeFailure => rfl

theorem Over.apply (h : r.Over) (op : Op) : (r.apply op).Over := by
  rw [over_apply h]
  exact ⟨h.slot, h.leftover⟩

theorem over_after (h : r.Over) (ops : List Op) :
    r.after ops = { r with failure := if .takeFailure ∈ ops then none else r.failure } := by
  induction ops generalizing r with
  | nil => rfl
  | cons op ops ih =>
    rw [after, List.foldl_cons, ← after, ih (h.apply op), over_apply h]
    by_cases ho : op = .takeFailure
    · simp [ho]
    · simp [ho, Ne.symm ho]

theorem asked_of_over (h : r.Over) (op : Op) : r.asked op = [] := by
  obtain ⟨bs, hb⟩ := Option.ne_none_iff_exists'.1 h.leftover
  cases op with
  | next => simp [asked, nextAnswers, h.slot, hb]
  | peek => simp [asked, nextAnswers, h.slot, hb]
  | backup => rfl
  | takeFailure => rfl

theorem shown_of_over (h : r.Over) (op : Op) : ∀ c ∈ r.shown op, c = none := by
  obtain ⟨bs, hb⟩ := Option.ne_none_iff_exists'.1 h.leftover
  have hn : r.next.1 = none := by simp [next, fetch, h.slot, hb]
  cases op with
  | next => simpa [shown] using hn
  | peek => simpa [shown, peek] using hn
  | backup => simp [shown]
  | takeFailure => simp [shown]

/-- **The failure kept at the end is handed over to the first who asks**, and to nobody after. -/
theorem taken_of_over (h : r.Over) (ops : List Op) :
    r.trace taken ops = (r.failure.map (·.error) ::
      List.replicate (ops.count .takeFailure) none).take (ops.count .takeFailure) := by
  induction ops generalizing r with
  | nil => rfl
  | cons op ops ih =>
    rw [trace, ih (h.apply op), over_apply h]
    by_cases ho : op = .takeFailure
    · subst ho
      rw [List.count_cons_self, List.take_succ_cons, if_pos rfl, Option.map_none,
        ← List.replicate_succ]
      rfl
    · have hnone : r.taken op = [] := by
        cases op with
        | takeFailure => exact absurd rfl ho
        | next => rfl
        | peek => rfl
        | backup => rfl
      rw [List.count_cons_of_ne ho, hnone, if_neg ho]
      rfl

/-- **What comes after the end**: no request is made, whatever the feed would deliver, no character
is handed out, and neither the offset nor the bytes that made none change. -/
structure Final (k : Reader) (later : List Op) : Prop where
  asked : k.trace asked later = []
  feed : ∀ g, ({ k with feed := g } : Reader).after later = { k.after later with feed := g }
  shown : ∀ c ∈ k.trace shown later, c = none
  offset : (k.after later).offset = k.offset
  undecoded : (k.after later).undecoded? = k.undecoded?
  warnings : k.trace warnings later = []

theorem final_of_over (h : k.Over) (later : List Op) : k.Final later := by
  have hkeep : ∀ r op, Over r → (r.apply op).Over := fun _ op hr => hr.apply op
  have hasked : ∀ p ∈ k.trace asked later, False := by
    refine forall_trace hkeep ?_ h later
    intro r op hr p hp
    rw [asked_of_over hr] at hp
    cases hp
  have hwarn : ∀ w ∈ k.trace warnings later, False := by
    refine forall_trace hkeep ?_ h later
    intro r op hr w hw
    rw [warnings, asked_of_over hr] at hw
    cases hw
  have hafter := over_after h later
  refine ⟨List.eq_nil_iff_forall_not_mem.2 hasked, ?_, ?_, ?_, ?_,
    List.eq_nil_iff_forall_not_mem.2 hwarn⟩
  · intro g
    have hg : ({ k with feed := g } : Reader).Over := ⟨h.slot, h.leftover⟩
    rw [over_after hg, hafter]
  · exact forall_trace hkeep (fun r op hr => shown_of_over hr op) h later
  · rw [hafter]
  · rw [hafter]
    rfl

/-! ### Failed reads -/

/-- **An operation meets a failed read**, the one that ends the feed, after the bytes `bs`: none has
been met before, and the reader keeps both it and the bytes. -/
structure Meets (r : Reader) (f : Feed) (op : Op) (w : ReadFailure) (bs : List UInt8) : Prop where
  before : r.failure = none
  warnings : r.warnings op = [w]
  asked : r.asked op = bs.map .byte ++ [.failed w.error]
  shown : none ∈ r.shown op
  failure : (r.apply op).failure = some w
  leftover : (r.apply op).leftover = some bs
  error : f.failure? = some w.error

/-- An operation meets no failed read: it keeps the failure that there is, if it does not hand it
over. -/
structure Unwarned (r : Reader) (op : Op) : Prop where
  warnings : r.warnings op = []
  failure : (r.apply op).failure = if op = .takeFailure then none else r.failure

/-- Where there is none, there is none after it. -/
theorem Unwarned.failure_none (h : r.Unwarned op) (hn : r.failure = none) :
    (r.apply op).failure = none := by
  rw [h.failure, hn, ite_self]

theorem warnings_eq_nil (h : ∀ p ∈ r.asked op, p.error? = none) : r.warnings op = [] := by
  rw [warnings, List.filterMap_eq_nil_iff]
  intro p hp
  rw [h p hp]
  rfl

/-- Asking for the next character meets the failed read that ends the feed, or none. -/
theorem next_warns (hd : r.DrawnFrom f) :
    r.Unwarned .next ∨ ∃ w bs, r.Meets f .next w bs := by
  rcases r.next_cases with ⟨hn, -, hfail⟩ | ⟨hl, ha, -, ⟨c, g, hf, hfail⟩ | ⟨bs, e, g, hf, h⟩⟩
  · refine .inl ⟨?_, hfail⟩
    rw [warnings, asked, hn]
    rfl
  · refine .inl ⟨warnings_eq_nil ?_, hfail⟩
    rw [asked, ha]
    exact Feed.fetchAnswers_of_char hf
  · obtain ⟨hnone, hleft, hfail⟩ := h
    obtain ⟨hbefore, cs, hcs⟩ := hd.reading hl
    rcases Feed.fetchAnswers_of_ended hf with ⟨rfl, hall⟩ | ⟨x, rfl, hans⟩
    · refine .inl ⟨warnings_eq_nil ?_, hfail⟩
      rw [asked, ha]
      exact hall
    · have hasked : r.asked .next = bs.map .byte ++ [.failed x] := ha.trans hans
      refine .inr ⟨⟨r.offset, x⟩, bs, hbefore, ?_, hasked, ?_, hfail, hleft, ?_⟩
      · rw [warnings, hasked, List.filterMap_append, List.filterMap_map]
        simp [Pull.error?]
      · rw [shown, hnone]
        exact List.mem_singleton_self _
      · rw [hcs.failure?]
        rcases Feed.delivered_of_ended hf with ⟨-, -, hx | hx⟩
        · cases hx
        · exact hx.symm

/-- **What an operation does about failed reads.** -/
theorem apply_cases (hd : r.DrawnFrom f) (op : Op) :
    r.Unwarned op ∨ ∃ w bs, r.Meets f op w bs := by
  have hback := r.next.2.backup_keeps
  cases op with
  | next => exact next_warns hd
  | peek =>
    -- looking ahead is as handing out, but for the character taken back
    rcases next_warns hd with h | ⟨w, bs, h⟩
    · exact .inl ⟨h.warnings, hback.2.2.trans h.failure⟩
    · exact .inr ⟨w, bs, h.before, h.warnings, h.asked, h.shown, hback.2.2.trans h.failure,
        hback.2.1.trans h.leftover, h.error⟩
  | backup => exact .inl ⟨rfl, r.backup_keeps.2.2⟩
  | takeFailure => exact .inl ⟨rfl, rfl⟩

/-- **A warning is logged where a failure comes to be kept**, and nowhere else. -/
theorem warnings_eq (hd : r.DrawnFrom f) (op : Op) :
    r.warnings op = if r.failure.isNone then (r.apply op).failure.toList else [] := by
  rcases apply_cases hd op with h | ⟨w, bs, h⟩
  · rw [h.warnings]
    cases hn : r.failure with
    | none =>
      rw [h.failure_none hn]
      rfl
    | some x => rfl
  · rw [h.warnings, h.failure, h.before]
    rfl

/-- Before a failed read is met there is none to hand over. -/
theorem taken_of_unwarned (hd : r.DrawnFrom f) (hn : r.failure = none) {ops : List Op}
    (hw : r.trace warnings ops = []) : ∀ e ∈ r.trace taken ops, e = none := by
  induction ops generalizing r with
  | nil => simp [trace]
  | cons op ops ih =>
    obtain ⟨hop, hrest⟩ := List.append_eq_nil_iff.1 hw
    have hnext : (r.apply op).failure = none := by
      rcases apply_cases hd op with h | ⟨w, bs, h⟩
      · exact h.failure_none hn
      · rw [h.warnings] at hop
        cases hop
    intro e he
    rcases List.mem_append.1 he with he | he
    · cases op with
      | takeFailure =>
        rw [List.mem_singleton.1 he, takeFailure, hn]
        rfl
      | next => cases he
      | peek => cases he
      | backup => cases he
    · exact ih (drawn_apply hd op) hnext hrest e he

/-- **One failed read at most is met, and it is the one that is kept.** -/
theorem warnings_le_one (hd : r.DrawnFrom f) (hn : r.failure = none) (ops : List Op) :
    (r.trace warnings ops).length ≤ 1 ∧
      ∀ w, (r.after ops).failure = some w → r.trace warnings ops = [w] := by
  induction ops generalizing r with
  | nil =>
    refine ⟨Nat.zero_le 1, ?_⟩
    intro w hw
    rw [show (r.after []).failure = none from hn] at hw
    cases hw
  | cons op ops ih =>
    rcases apply_cases hd op with h | ⟨w, bs, h⟩
    · rw [trace, h.warnings, List.nil_append]
      exact ih (drawn_apply hd op) (h.failure_none hn)
    · -- after the failed read the input has ended
      have hover := over_of_shown h.shown
      rw [trace, h.warnings, (final_of_over hover ops).warnings, List.append_nil]
      refine ⟨Nat.le_refl 1, ?_⟩
      intro x hx
      rw [after, List.foldl_cons, ← after, over_after hover] at hx
      have hkept : (r.apply op).failure = some x := by
        by_cases ht : .takeFailure ∈ ops
        · simp [ht] at hx
        · simpa [ht] using hx
      rw [h.failure] at hkept
      rw [Option.some.inj hkept]

theorem error_of_warning (hd : r.DrawnFrom f) (ops : List Op) :
    ∀ w ∈ r.trace warnings ops, f.failure? = some w.error := by
  have hkeep : ∀ k op, DrawnFrom k f → (k.apply op).DrawnFrom f := fun _ op hk => drawn_apply hk op
  refine forall_trace hkeep ?_ hd ops
  intro r op hr w hw
  rcases apply_cases hr op with h | ⟨x, bs, h⟩
  · rw [h.warnings] at hw
    cases hw
  · rw [h.warnings] at hw
    rw [List.mem_singleton.1 hw]
    exact h.error

/-- **The end of the input is final**, whatever is done with the reader of a feed before and after,
and whatever the feed would deliver.

The answers told are those to the requests that lead to where the feed is, and a warning is logged
where a failure comes to be kept. Once a character has been asked for and none has come, no request
is made again and all stays as it is. One failed read at most is met, the one that ends the feed, and
nothing else is ever kept as the failure. Until an operation meets it there is no failure to hand
over, and after that it is handed over once, to the first who asks. It is the last answer to that
operation, and the bytes read of the character that it struck are kept with it. -/
theorem end_final (f : Feed) (ops : List Op) (op : Op) (later : List Op) :
    let r := (ofFeed f).after ops
    let k := r.apply op
    let all := ops ++ op :: later
    f.Requests ((ofFeed f).trace asked all) ((ofFeed f).after all).feed ∧
    r.warnings op = (if r.failure.isNone then k.failure.toList else []) ∧
    (none ∈ r.shown op → k.Final later) ∧
    ((ofFeed f).trace warnings all).length ≤ 1 ∧
    (∀ w ∈ (ofFeed f).trace warnings all, f.failure? = some w.error) ∧
    (∀ w, r.failure = some w → (ofFeed f).trace warnings ops = [w]) ∧
    ((ofFeed f).trace warnings all = [] → ∀ e ∈ (ofFeed f).trace taken all, e = none) ∧
    ∀ w ∈ r.warnings op,
      (∀ e ∈ (ofFeed f).trace taken ops, e = none) ∧
      k.trace taken later = (some w.error ::
        List.replicate (later.count .takeFailure) none).take (later.count .takeFailure) ∧
      none ∈ r.shown op ∧ k.failure = some w ∧
      ∃ bs, r.asked op = bs.map .byte ++ [.failed w.error] ∧
        k.undecoded? = (some bs).filter (· ≠ []) := by
  intro r k all
  have hstart := drawn_ofFeed f
  have hd : r.DrawnFrom f := drawn_after hstart ops
  refine ⟨(ofFeed f).requests_trace all, warnings_eq hd op, ?_,
    (warnings_le_one hstart rfl all).1, error_of_warning hstart all,
    (warnings_le_one hstart rfl ops).2, taken_of_unwarned hstart rfl, ?_⟩
  · intro hn
    exact final_of_over (over_of_shown hn) later
  · intro w hw
    rcases apply_cases hd op with h | ⟨x, bs, h⟩
    · rw [h.warnings] at hw
      cases hw
    · obtain rfl : w = x := by
        rw [h.warnings] at hw
        exact List.mem_singleton.1 hw
      -- as there is one failed read only, none was met before
      have hnone : (ofFeed f).trace warnings ops = [] := by
        have hone := (warnings_le_one hstart rfl (ops ++ [op])).1
        rw [trace_append, trace, h.warnings, List.length_append] at hone
        apply List.length_eq_zero_iff.1
        simp at hone
        omega
      refine ⟨taken_of_unwarned hstart rfl hnone, ?_, h.shown, h.failure, bs, h.asked, ?_⟩
      · rw [taken_of_over (over_of_shown h.shown), h.failure]
        rfl
      · rw [undecoded?, h.leftover]

/-- A failed read in the middle of a character, before more that a feed would deliver. -/
example :
    let e : ReadError := ⟨.connectionReset, "reset"⟩
    let r := ofFeed (.ofItems [.bytes [0xE2, 0x82], .failure e, .bytes [0x61], .failure e])
    let ops : List Op := [.takeFailure, .peek, .next, .takeFailure, .next, .takeFailure]
    r.trace shown ops = [none, none, none] ∧ r.trace taken ops = [none, some e, none] ∧
      (r.after ops).undecoded? = some [0xE2, 0x82] ∧ (r.after ops).feed.size = 1 := by
  decide

end Reader

end ParenLex
