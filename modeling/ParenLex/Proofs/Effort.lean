import ParenLex.Proofs.Rounds
import ParenLex.Proofs.Source

/-!
# How long a run takes

Every run ends, whatever its feed delivers and its sink does, and takes no more than three steps for
each byte of the feed and two more: a step takes a character, or it is one of two at most that look
at the same character before it is taken. A step in turn asks for characters as often as it hands
them out and a few times more, and a character takes four bytes at most.

* `exists_runs`: the rounds of a run, and how many of them step.
* `rank_of_passes`: steps without a token do not go in circles.
* `effort`: what a run, a step, and a call of the reader take.
-/

namespace ParenLex

namespace Feed

variable {f g : Feed} {ps : List Pull}

theorem items_pullItems (stopped : Bool) (items : List Item) :
    (pullItems stopped items).2.items <:+ items := by
  fun_induction pullItems stopped items with
  | case1 => exact List.suffix_refl _
  | case2 => exact List.suffix_cons _ _
  | case3 => exact List.suffix_cons _ _
  | case4 s e items he ih => exact ih.trans (List.suffix_cons _ _)
  | case5 s e items he => exact List.suffix_cons _ _
  | case6 s items ih => exact ih.trans (List.suffix_cons _ _)

/-- Requests go through the script, and come back to no entry of it. -/
theorem Requests.items (h : Requests f ps g) : g.items <:+ f.items := by
  induction h with
  | refl => exact List.suffix_refl _
  | @pull f g ps _ ih =>
    refine ih.trans ?_
    unfold Feed.pull
    split
    · exact List.suffix_refl _
    · exact items_pullItems f.stopped f.items

/-- A character takes four requests at most. -/
theorem requests_fetch (f : Feed) : ∃ ps, Requests f ps f.fetch.2 ∧ ps.length ≤ 4 := by
  unfold fetch
  split
  · next lead g hp =>
    obtain ⟨ps, hr, hlen, -⟩ := g.requests_tail (Utf8.width lead - 1)
    have hwidth : Utf8.width lead ≤ 4 := by
      unfold Utf8.width
      split_ifs <;> decide
    refine ⟨.byte lead :: ps, ?_, by simp; omega⟩
    have hall := (Requests.of_pull hp).trans hr
    dsimp only
    split <;> exact hall
  · next g hp => exact ⟨_, .of_pull hp, by simp⟩
  · next e g hp => exact ⟨_, .of_pull hp, by simp⟩

end Feed

/-- So does a call of a reader. -/
theorem Reader.requests_next (r : Reader) :
    ∃ ps, r.feed.Requests ps r.next.2.feed ∧ ps.length ≤ 4 := by
  unfold next
  split
  · exact ⟨[], .refl _, by decide⟩
  · unfold fetch
    split
    · exact ⟨[], .refl _, by decide⟩
    · have hf := r.feed.requests_fetch
      split
      · next c f h =>
        rw [h] at hf
        exact hf
      · next bs e f h =>
        rw [h] at hf
        exact hf

namespace Lexer

/-- A step from one mode to another that makes no token. -/
def Passes (a b : Lexer × Mode) : Prop := a.1.step a.2 = (⟨none, .proceed b.2⟩, b.1)

variable {a b : Lexer × Mode}

theorem rank_of_passing (h : Passes a b) : b.1.view = a.1.view ∧ b.2.rank < a.2.rank := by
  have ho := a.1.outcome_step a.2
  rw [h] at ho
  cases ho with
  | choose n k hn hv => exact ⟨hv, hn⟩

/-- **Steps without a token stand still**, and each leads to a mode closer to taking one. -/
theorem rank_of_passes (h : Relation.TransGen Passes a b) :
    b.1.view = a.1.view ∧ b.2.rank < a.2.rank := by
  induction h with
  | single hab => exact rank_of_passing hab
  | tail _ hab ih =>
    obtain ⟨hv, hr⟩ := rank_of_passing hab
    exact ⟨hv.trans ih.1, hr.trans ih.2⟩

end Lexer

namespace Round

variable {σ : Type}

/-- **The rounds of a run** from one on, up to the round in which it ends. -/
inductive Runs (sink : Sink σ) : Round σ → List (Round σ) → Prop
  | last {r : Round σ} : r.next? sink = none → Runs sink r [r]
  | next {r k : Round σ} {rs : List (Round σ)} :
      r.next? sink = some k → Runs sink k rs → Runs sink r (r :: rs)

/-- Whether the lexer is stepped in a round: it goes on, and no request to stop is seen. -/
def steps (sink : Sink σ) (r : Round σ) : Bool :=
  match r.scan.stage with
  | .running _ => !r.asked sink
  | _ => false

variable {sink : Sink σ} {r k : Round σ} {rs : List (Round σ)}

theorem reaches_of_runs (h : r.Runs sink rs) (hk : k ∈ rs) : r.Reaches sink k := by
  induction h with
  | last hn =>
    rw [List.mem_singleton.1 hk]
    exact .refl
  | next hn _ ih =>
    rcases List.mem_cons.1 hk with rfl | hk
    · exact .refl
    · exact .head hn (ih hk)

/-- A round that steps has a turn after it left. -/
theorem budget_of_steps (h : r.steps sink = true) : 2 ≤ r.scan.budget := by
  unfold steps at h
  split at h
  · next m hm =>
    simp only [Scan.budget, hm]
    omega
  · cases h

/-- **Every run ends**, and steps less often than its scan has turns left. -/
theorem exists_runs (sink : Sink σ) (r : Round σ) :
    ∃ rs, r.Runs sink rs ∧ rs.countP (steps sink) ≤ r.scan.budget - 1 := by
  have hpos : r.steps sink = true → 2 ≤ r.scan.budget := budget_of_steps
  cases hn : r.next? sink with
  | none =>
    refine ⟨[r], .last hn, ?_⟩
    rw [List.countP_singleton]
    split
    · next hs =>
      have := hpos hs
      omega
    · omega
  | some k =>
    obtain ⟨ho, st, -, hk⟩ := next?_eq_some.1 hn
    have hlt : k.scan.budget < r.scan.budget := by
      rw [hk]
      exact Scan.budget_turn _ ho
    obtain ⟨rs, hrs, hcount⟩ := exists_runs sink k
    refine ⟨r :: rs, .next hn hrs, ?_⟩
    rw [List.countP_cons]
    split
    · next hs =>
      have := hpos hs
      omega
    · omega
termination_by r.scan.budget

end Round

/-- **A run takes at most three steps for each byte of its feed, and two more**, whatever the feed
delivers, the settings say and the sink does. A step asks for no more characters than the bytes that
it hands out and four, a call of the reader for no more than four bytes, and no entry of the script
is gone through twice. Steps without a token stay where they are, and lead back to no mode. -/
theorem effort {σ : Type} (f : Feed) (settings : Settings) (sink : Sink σ) (st : σ) :
    (∃ rs, (Round.start st (Scan.ofFeed f settings)).Runs sink rs ∧
      (∀ r ∈ rs, r.rest sink = (Scan.ofFeed f settings).run sink st) ∧
      rs.countP (Round.steps sink) ≤ 3 * f.size + 2) ∧
    (∀ (l : Lexer) (m : Mode), ∃ n, l.reader.Calls (l.step m).2.reader n ∧
      n + (l.step m).2.size ≤ l.size + 4) ∧
    (∀ r : Reader, ∃ ps, r.feed.Requests ps r.next.2.feed ∧ ps.length ≤ 4 ∧
      r.next.2.feed.items <:+ r.feed.items) ∧
    ∀ a b : Lexer × Mode, Relation.TransGen Lexer.Passes a b → b.1.here = a.1.here ∧ b.2 ≠ a.2 := by
  refine ⟨?_, ?_, ?_, ?_⟩
  · obtain ⟨rs, hrs, hcount⟩ := Round.exists_runs sink (Round.start st (Scan.ofFeed f settings))
    refine ⟨rs, hrs, ?_, hcount⟩
    intro r hr
    exact Round.rest_of_reaches (Round.reaches_of_runs hrs hr)
  · intro l m
    exact l.costs_step m
  · intro r
    obtain ⟨ps, hps, hlen⟩ := r.requests_next
    exact ⟨ps, hps, hlen, hps.items⟩
  · intro a b h
    obtain ⟨hv, hr⟩ := Lexer.rank_of_passes h
    refine ⟨congrArg View.here hv, ?_⟩
    intro he
    rw [he] at hr
    exact Nat.lt_irrefl _ hr

end ParenLex
