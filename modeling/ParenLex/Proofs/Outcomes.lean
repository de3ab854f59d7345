import ParenLex.Lexer.Progress
import ParenLex.Proofs.Shape

/-!
# What may come of a step

A step may be taken from any mode, whether the mode fits or not. It takes a whole piece, or it
leaves the lexer where it is: it chooses a mode closer to taking one, fails, or finds the input
exhausted. Only an open paren too many is a fault.

* `View.outcome_step`: the outcomes of a step from any mode.
* `Lexer.outcome_step`: those of a lexer's step.
* `Lexer.stays_or_takes`: what they come to for the lexer after a step.
-/

namespace ParenLex

namespace View

/-- The view after a piece. -/
def after (v : View) (p : Piece) : View :=
  { v with
    ahead := v.ahead.drop p.text.length
    mark := v.here.advance p.text
    here := v.here.advance p.text
    depth := p.depthAfter v.depth }

/-- **A piece that a step may take**: a whole one at the head of the text ahead, and a paren only
where the depth allows it. -/
structure Takes (v : View) (p : Piece) : Prop where
  whole : p.Whole v.ahead
  begins : p.text <+: v.ahead
  opens : p.kind = .openParen → v.depth < counterMax
  closes : p.kind = .closeParen → 0 < v.depth

/-- **The outcomes of a step** from any mode. -/
inductive Outcome (v : View) (m : Mode) : Step × View → Prop
  | choose (n : Mode) : n.rank < m.rank → Outcome v m (v.goto n)
  | fail (e : LexError) : Outcome v m (v.fail e)
  | exhausted : Outcome v m (⟨none, .halt .exhausted⟩, v)
  | take (p : Piece) (n : Mode) : v.Takes p →
      Outcome v m (⟨some ⟨p.kind, String.ofList p.text, v.mark.position⟩, .proceed n⟩, v.after p)
  | fault (w : View) : m = .openParen → v.ahead.head? = some '(' → counterMax ≤ v.depth →
      w.ending = v.ending → Outcome v m (⟨none, .fault .overflow⟩, w)

variable {v : View} {c : Char} {cs : List Char}

/-! ### Steps that choose -/

theorem outcome_text (v : View) : v.Outcome .text (v.step .text) := by
  simp only [step]
  split
  · split
    · exact .exhausted
    · exact .fail _
  · split
    · exact .choose _ (by decide)
    · exact .choose _ (by decide)
    · exact .choose _ (by decide)
    · exact .fail _

theorem outcome_insideParen (v : View) : v.Outcome .insideParen (v.step .insideParen) := by
  simp only [step]
  split_ifs
  · exact .choose _ (by decide)
  · split
    · exact .fail _
    · split_ifs
      · exact .choose _ (by decide)
      · exact .choose _ (by decide)
      · split
        · exact .choose _ (by decide)
        · exact .choose _ (by decide)
        · exact .choose _ (by decide)
        · exact .choose _ (by decide)
        · exact .fail _

/-! ### Steps that take a piece -/

theorem outcome_openParen (v : View) : v.Outcome .openParen (v.step .openParen) := by
  by_cases hh : v.ahead.head? = some '('
  · obtain ⟨cs, ha⟩ := List.head?_eq_some_iff.1 hh
    by_cases hd : v.depth < counterMax
    · rw [step, if_pos hh, if_pos hd]
      have ht : v.Takes ⟨.openParen, ['(']⟩ :=
        ⟨Piece.whole_openParen _, by simp [ha], fun _ => hd, by simp⟩
      exact .take _ .insideParen ht
    · rw [step, if_pos hh, if_neg hd]
      exact .fault _ rfl hh (Nat.le_of_not_lt hd) rfl
  · rw [step, if_neg hh]
    exact .fail _

theorem outcome_closeParen (v : View) : v.Outcome .closeParen (v.step .closeParen) := by
  by_cases hd : v.depth = 0
  · rw [step, if_pos hd]
    exact .fail _
  by_cases hh : v.ahead.head? = some ')'
  · obtain ⟨cs, ha⟩ := List.head?_eq_some_iff.1 hh
    rw [step, if_neg hd, if_pos hh]
    have ht : v.Takes ⟨.closeParen, [')']⟩ :=
      ⟨Piece.whole_closeParen _, by simp [ha], by simp, fun _ => by omega⟩
    exact .take _ .insideParen ht
  · rw [step, if_neg hd, if_neg hh]
    exact .fail _

/-- A run that is not empty is taken as a piece, if it leaves the depth alone. -/
theorem run_eq_after {k : List Char → Kind} {q : Char → Bool} {m : Mode} (ha : v.ahead = c :: cs)
    (hq : q c = true) (hk : (Piece.run k q v.ahead).depthAfter v.depth = v.depth) :
    v.run q k m = (⟨some ⟨(Piece.run k q v.ahead).kind, String.ofList (Piece.run k q v.ahead).text,
      v.mark.position⟩, .proceed m⟩, v.after (Piece.run k q v.ahead)) := by
  have hw : v.ahead.takeWhile q = c :: cs.takeWhile q := by rw [ha, List.takeWhile_cons_of_pos hq]
  have hrun : v.run q k m = v.take (k (v.ahead.takeWhile q)) (v.ahead.takeWhile q) m := by
    rw [run, hw]
  rw [hrun, after, hk]
  rfl

theorem outcome_run {k : List Char → Kind} {q : Char → Bool} {m n : Mode}
    (hw : ∀ c cs, v.ahead = c :: cs → q c = true → (Piece.run k q v.ahead).Whole v.ahead)
    (ho : ∀ cs, k cs ≠ .openParen) (hc : ∀ cs, k cs ≠ .closeParen) :
    v.Outcome m (v.run q k n) := by
  rcases ha : v.ahead.takeWhile q with _ | ⟨c, cs⟩
  · rw [run, ha]
    exact .fail _
  · -- the run begins the text, and changes no depth
    have hp : v.ahead.takeWhile q <+: v.ahead := List.takeWhile_prefix q
    have hq : q c = true := List.mem_takeWhile_imp (by rw [ha]; exact List.mem_cons_self)
    obtain ⟨ds, hd⟩ : ∃ ds, v.ahead = c :: ds := by
      obtain ⟨ds, hd⟩ := hp
      exact ⟨cs ++ ds, by rw [← hd, ha]; rfl⟩
    have ht : v.Takes (Piece.run k q v.ahead) :=
      ⟨hw c ds hd hq, hp, fun h => absurd h (ho _), fun h => absurd h (hc _)⟩
    rw [run_eq_after hd hq (Piece.depthAfter_of_ne (ho _) (hc _) _)]
    exact .take _ n ht

theorem outcome_word {m : Mode} : v.Outcome m (v.run isWordChar .ofWord .insideParen) := by
  apply outcome_run
  · intro c cs ha hq
    rw [ha]
    exact Piece.whole_word hq cs
  · intro cs
    rcases Kind.ofWord_cases cs with h | h | h | h <;> simp [h]
  · intro cs
    rcases Kind.ofWord_cases cs with h | h | h | h <;> simp [h]

theorem outcome_whitespace (v : View) : v.Outcome .whitespace (v.step .whitespace) := by
  apply outcome_run (k := fun _ => .whitespace)
  · intro c cs ha hq
    rw [ha]
    exact Piece.whole_blanks hq cs
  · simp
  · simp

theorem outcome_comment (v : View) : v.Outcome .comment (v.step .comment) := by
  by_cases hh : v.ahead.head? = some ';'
  · rw [step, if_pos hh]
    apply outcome_run (k := fun _ => .comment)
    · intro c cs ha _
      obtain rfl : c = ';' := by simpa [ha] using hh
      rw [ha]
      exact Piece.whole_comment cs
    · simp
    · simp
  · rw [step, if_neg hh]
    exact .fail _

/-- **A step from any mode takes a whole piece or leaves the view**, unless the depth overflows. -/
theorem outcome_step (v : View) (m : Mode) : v.Outcome m (v.step m) := by
  cases m with
  | text => exact v.outcome_text
  | openParen => exact v.outcome_openParen
  | insideParen => exact v.outcome_insideParen
  | identifier => exact outcome_word
  | number =>
    simp only [step]
    split
    · exact outcome_word
    · exact .fail _
  | closeParen => exact v.outcome_closeParen
  | whitespace => exact v.outcome_whitespace
  | comment => exact v.outcome_comment

theorem ending_step (v : View) (m : Mode) : (v.step m).2.ending = v.ending := by
  have ho := v.outcome_step m
  generalize v.step m = x at ho ⊢
  cases ho with
  | choose n => rfl
  | fail e => rfl
  | exhausted => rfl
  | take p n => rfl
  | fault w _ _ _ hw => exact hw

end View

namespace Lexer

/-- **The outcomes of a lexer's step** from any mode. -/
inductive Outcome (l : Lexer) (m : Mode) : Step × Lexer → Prop
  | choose (n : Mode) (k : Lexer) : n.rank < m.rank → k.view = l.view → Outcome l m (k.goto n)
  | fail (e : LexError) (k : Lexer) : k.view = l.view →
      Outcome l m (⟨some (.error e.message l.position), .halt .failed⟩, k)
  | exhausted (k : Lexer) : k.view = l.view → Outcome l m (⟨none, .halt .exhausted⟩, k)
  | take (p : Piece) (n : Mode) (k : Lexer) : l.view.Takes p → k.view = l.view.after p →
      Outcome l m (⟨some ⟨p.kind, String.ofList p.text, l.position⟩, .proceed n⟩, k)
  | fault (k : Lexer) : m = .openParen → l.peek.1 = some '(' → counterMax ≤ l.depth →
      Outcome l m (⟨none, .fault .overflow⟩, k)

variable {l : Lexer} {m : Mode}

theorem peek_eq_head? (l : Lexer) : l.peek.1 = l.view.ahead.head? := by
  obtain ⟨k, hk, -⟩ := l.peek_eq
  rw [hk]

/-- **So does a lexer's step.** -/
theorem outcome_step (l : Lexer) (m : Mode) : l.Outcome m (l.step m) := by
  have ho := l.view.outcome_step m
  rw [← l.step_view m] at ho
  generalize l.step m = x at ho ⊢
  obtain ⟨o, k⟩ := x
  generalize hw : Prod.map id view (o, k) = w at ho
  cases ho with
  | choose n hn =>
    obtain ⟨rfl, hv⟩ := Prod.mk.inj hw
    exact .choose n k hn hv
  | fail e =>
    obtain ⟨rfl, hv⟩ := Prod.mk.inj hw
    exact .fail e k hv
  | exhausted =>
    obtain ⟨rfl, hv⟩ := Prod.mk.inj hw
    exact .exhausted k hv
  | take p n ht =>
    obtain ⟨rfl, hv⟩ := Prod.mk.inj hw
    exact .take p n k ht hv
  | fault w hm hh hd =>
    obtain ⟨rfl, -⟩ := Prod.mk.inj hw
    exact .fault k hm (l.peek_eq_head?.trans hh) hd

theorem ending_step (l : Lexer) (m : Mode) : (l.step m).2.view.ending = l.view.ending := by
  rw [view_of_step, View.ending_step]

/-- **After a step without a fault** the lexer is where it was, with no token but an error, or it has
taken a piece and made a token of it. -/
theorem stays_or_takes (hn : ∀ e, (l.step m).1.next ≠ .fault e) :
    ((l.step m).2.view = l.view ∧ ∀ t, (l.step m).1.token = some t → t.kind = .error) ∨
      ∃ p, l.view.Takes p ∧ (l.step m).2.view = l.view.after p ∧
        (l.step m).1.token = some ⟨p.kind, String.ofList p.text, l.position⟩ := by
  have ho := l.outcome_step m
  generalize l.step m = x at ho hn ⊢
  cases ho with
  | choose n k _ hv =>
    refine .inl ⟨hv, ?_⟩
    intro t ht
    cases ht
  | fail e k hv =>
    refine .inl ⟨hv, ?_⟩
    intro t ht
    rw [← Option.some.inj ht]
    rfl
  | exhausted k hv =>
    refine .inl ⟨hv, ?_⟩
    intro t ht
    cases ht
  | take p n k ht hv => exact .inr ⟨p, ht, hv, rfl⟩
  | fault k _ _ _ => exact absurd rfl (hn _)

end Lexer

end ParenLex
