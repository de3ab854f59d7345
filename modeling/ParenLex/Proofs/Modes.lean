import ParenLex.Proofs.Outcomes

/-!
# What modes expect

A mode that takes a token expects to stand before one of its kind. Steps from modes whose
expectations are met lead to such modes again, and take the very pieces that the text falls into.

* `View.goes_step`: a step from a mode that fits chooses a mode that fits, takes the piece at the
  head of the text, or finds that there is none.
* `Lexer.goes_step`: so does the step of a lexer.
-/

namespace ParenLex

/-- A character is a paren, the comment mark or a blank, or it has no structural meaning. -/
theorem ofChar_cases (c : Char) : c = '(' ∨ c = ')' ∨ c = ';' ∨
    isBlank c = true ∧ Kind.ofChar c = .whitespace ∨
    (c ≠ '(' ∧ c ≠ ')' ∧ c ≠ ';' ∧ isBlank c = false) ∧ Kind.ofChar c = .error := by
  by_cases hb : isBlank c = true
  · exact .inr (.inr (.inr (.inl ⟨hb, by simpa [isBlank] using hb⟩)))
  · have he : c ≠ '(' → c ≠ ')' → c ≠ ';' → Kind.ofChar c = .error := by
      intro h1 h2 h3
      unfold isBlank at hb
      unfold Kind.ofChar at hb ⊢
      split <;> simp_all
    by_cases h1 : c = '('
    · exact .inl h1
    · by_cases h2 : c = ')'
      · exact .inr (.inl h2)
      · by_cases h3 : c = ';'
        · exact .inr (.inr (.inl h3))
        · exact .inr (.inr (.inr (.inr ⟨⟨h1, h2, h3, by simpa using hb⟩, he h1 h2 h3⟩)))

namespace View

/-- **What a mode expects of the view that it steps from.** -/
def Fits (v : View) : Mode → Prop
  | .text => v.depth = 0
  | .insideParen => True
  | .openParen => v.ahead.head? = some '('
  | .closeParen => 0 < v.depth ∧ v.ahead.head? = some ')'
  | .identifier => 0 < v.depth ∧
      ∃ c, v.ahead.head? = some c ∧ isWordChar c = true ∧ isDigit c = false
  | .number => 0 < v.depth ∧ ∃ c, v.ahead.head? = some c ∧ isDigit c = true
  | .whitespace => ∃ c, v.ahead.head? = some c ∧ isBlank c = true
  | .comment => v.ahead.head? = some ';'

/-- The depth has room for all parens that may come. -/
def Room (v : View) : Prop := v.depth + v.ahead.length ≤ counterMax

/-- The pieces that the text ahead falls into. -/
def munch (v : View) : Munch := ParenLex.munch v.depth v.ahead

/-- The outcomes of a step from a mode that fits. Only between tokens is a mode chosen, and only
there may it turn out that no piece is left. -/
inductive Goes (v : View) (m : Mode) : Step × View → Prop
  | choose (k : Mode) : m = .text ∨ m = .insideParen → v.Fits k → Goes v m (v.goto k)
  | take (p : Piece) (k : Mode) : Piece.first? v.depth v.ahead = some p → (v.after p).Fits k →
      Goes v m (⟨some ⟨p.kind, String.ofList p.text, v.mark.position⟩, .proceed k⟩, v.after p)
  | fail (e : LexError) : m = v.between → Piece.first? v.depth v.ahead = none →
      v.munch.obstacle? v.ending = some e → Goes v m (v.fail e)
  | exhausted : m = v.between → Piece.first? v.depth v.ahead = none →
      v.munch.obstacle? v.ending = none → Goes v m (⟨none, .halt .exhausted⟩, v)

variable {v : View} {p : Piece} {c : Char} {cs : List Char}

theorem munch_eq (h : Piece.first? v.depth v.ahead = none) : v.munch = ⟨[], v.depth, v.ahead⟩ :=
  munch_of_none h

theorem room_after (h : v.Room) (hp : Piece.first? v.depth v.ahead = some p) :
    (v.after p).Room := by
  obtain ⟨h1, h2⟩ := Piece.text_first? hp
  have := List.length_pos_iff.2 h1
  have := h2.length_le
  have := p.depthAfter_le v.depth
  unfold Room at h ⊢
  simp only [after, List.length_drop]
  omega

theorem fits_between (v : View) : v.Fits v.between := by
  unfold between
  split
  · next h => exact h
  · trivial

/-! ### Steps that choose -/

/-- No piece where a character has no place. -/
theorem goes_fail_char {m : Mode} (hb : m = v.between)
    (h : Piece.first? v.depth v.ahead = none) (ha : v.ahead = c :: cs) :
    v.Goes m (v.fail (if v.depth = 0 then .bytes (String.utf8EncodeChar c) else .character c)) :=
  .fail _ hb h (by rw [munch_eq h, Munch.obstacle?, ha])

theorem goes_text (hm : v.Fits .text) : v.Goes .text (v.step .text) := by
  have hd : v.depth = 0 := hm
  have ht : .text = v.between := (if_pos hd).symm
  rcases ha : v.ahead with _ | ⟨c, cs⟩
  · have hf : Piece.first? v.depth v.ahead = none := by rw [ha]; rfl
    simp only [step, ha]
    split_ifs with hb
    · exact .exhausted ht hf (by simp [munch_eq hf, Munch.obstacle?, ha, hb, hd])
    · refine .fail _ ht hf ?_
      simp [munch_eq hf, Munch.obstacle?, ha, hb, Feed.Ending.error]
  · simp only [step, ha]
    rcases ofChar_cases c with rfl | rfl | rfl | ⟨hb, hk⟩ | ⟨⟨h1, h2, h3, h4⟩, hk⟩
    · exact .choose _ (.inl rfl) (by simp [Fits, ha])
    · have hb : isBlank ')' = false := by decide
      have hf : Piece.first? v.depth v.ahead = none := by simp [ha, hd, Piece.first?, hb]
      have hg := goes_fail_char ht hf ha
      rw [if_pos hd] at hg
      exact hg
    · exact .choose _ (.inl rfl) (by simp [Fits, ha])
    · simp only [hk]
      exact .choose _ (.inl rfl) ⟨c, by simp [ha], hb⟩
    · have hf : Piece.first? v.depth v.ahead = none := by
        simp [ha, hd, Piece.first?, h1, h3, h4]
      simpa [hd, hk] using goes_fail_char ht hf ha

theorem goes_insideParen : v.Goes .insideParen (v.step .insideParen) := by
  simp only [step]
  split_ifs with hd
  · exact .choose _ (.inr rfl) hd
  have hpos : 0 < v.depth := by omega
  have ht : .insideParen = v.between := (if_neg hd).symm
  rcases ha : v.ahead with _ | ⟨c, cs⟩
  · have hf : Piece.first? v.depth v.ahead = none := by rw [ha]; rfl
    refine .fail _ ht hf ?_
    by_cases hb : v.ending.bytes = [] <;>
      simp [munch_eq hf, Munch.obstacle?, ha, hb, hd, obstacle, Feed.Ending.error]
  · have hhead : v.ahead.head? = some c := by simp [ha]
    simp only
    split_ifs with h1 h2
    · exact .choose _ (.inr rfl) ⟨hpos, c, hhead, h1⟩
    · exact .choose _ (.inr rfl) ⟨hpos, c, hhead, h2, by simpa using h1⟩
    · rcases ofChar_cases c with rfl | rfl | rfl | ⟨hb, hk⟩ | ⟨⟨h3, h4, h5, h6⟩, hk⟩
      · exact .choose _ (.inr rfl) hhead
      · exact .choose _ (.inr rfl) ⟨hpos, hhead⟩
      · exact .choose _ (.inr rfl) hhead
      · simp only [hk]
        exact .choose _ (.inr rfl) ⟨c, hhead, hb⟩
      · have hf : Piece.first? v.depth v.ahead = none := by
          simp [ha, hd, Piece.first?, h2, h3, h4, h5, h6]
        simpa [hd, hk, obstacle, ha] using goes_fail_char ht hf ha

/-! ### Steps that take a piece -/

theorem goes_openParen (hm : v.Fits .openParen) (hr : v.Room) : v.Goes .openParen (v.step .openParen) := by
  have hh : v.ahead.head? = some '(' := hm
  obtain ⟨cs, ha⟩ := List.head?_eq_some_iff.1 hh
  have hlt : v.depth < counterMax := by
    unfold Room at hr
    rw [ha, List.length_cons] at hr
    omega
  rw [step, if_pos hh, if_pos hlt]
  exact .take _ .insideParen (ha ▸ Piece.first?_openParen _ _) trivial

theorem goes_closeParen (hm : v.Fits .closeParen) : v.Goes .closeParen (v.step .closeParen) := by
  obtain ⟨hd, hh⟩ := hm
  obtain ⟨cs, ha⟩ := List.head?_eq_some_iff.1 hh
  have hd' : v.depth ≠ 0 := by omega
  rw [step, if_neg hd', if_pos hh]
  exact .take _ .insideParen (ha ▸ Piece.first?_closeParen _ hd) trivial

/-- A run is taken as a piece where it does not change the depth. -/
theorem goes_run {k : List Char → Kind} {q : Char → Bool} {m m' : Mode} (ha : v.ahead = c :: cs)
    (hq : q c = true) (hp : Piece.first? v.depth v.ahead = some (Piece.run k q v.ahead))
    (hk : (Piece.run k q v.ahead).depthAfter v.depth = v.depth)
    (hm : (v.after (Piece.run k q v.ahead)).Fits m) : v.Goes m' (v.run q k m) := by
  rw [run_eq_after ha hq hk]
  exact .take _ m hp hm

theorem goes_word {m : Mode} (hd : 0 < v.depth) (ha : v.ahead = c :: cs) (hc : isWordChar c = true) :
    v.Goes m (v.run isWordChar .ofWord .insideParen) := by
  have hp : Piece.first? v.depth v.ahead = some (Piece.word v.ahead) := by
    rw [ha]; exact Piece.first?_word cs hd hc
  exact goes_run ha hc hp (Piece.depthAfter_word _ _) trivial

theorem goes_whitespace (hm : v.Fits .whitespace) : v.Goes .whitespace (v.step .whitespace) := by
  obtain ⟨c, hh, hc⟩ := hm
  obtain ⟨cs, ha⟩ := List.head?_eq_some_iff.1 hh
  have hp : Piece.first? v.depth v.ahead = some (Piece.blanks v.ahead) := by
    rw [ha]; exact Piece.first?_blank _ cs hc
  exact goes_run ha hc hp rfl (fits_between _)

theorem goes_comment (hm : v.Fits .comment) : v.Goes .comment (v.step .comment) := by
  have hh : v.ahead.head? = some ';' := hm
  obtain ⟨cs, ha⟩ := List.head?_eq_some_iff.1 hh
  have hp : Piece.first? v.depth v.ahead = some (Piece.comment v.ahead) := by
    rw [ha]; exact Piece.first?_comment _ cs
  rw [step, if_pos hh]
  refine goes_run ha (by decide) hp rfl ?_
  have hrest : (v.after (Piece.run (fun _ => .comment) (· ≠ '\n') v.ahead)).ahead =
      v.ahead.dropWhile (· ≠ '\n') := drop_takeWhile _ _
  split
  · exact fits_between _
  · next hne =>
    -- what the comment stopped at is a line feed, and that is a blank
    obtain ⟨c, ds, hds⟩ := List.exists_cons_of_ne_nil hne
    refine ⟨c, by rw [hrest, hds]; rfl, ?_⟩
    have := v.ahead.head?_dropWhile_not (· ≠ '\n')
    rw [hds] at this
    have hc : c = '\n' := by simpa using this
    rw [hc]; decide

/-- **A step from a mode that fits goes the way of the pieces.** -/
theorem goes_step {m : Mode} (hm : v.Fits m) (hr : v.Room) : v.Goes m (v.step m) := by
  cases m with
  | text => exact goes_text hm
  | openParen => exact goes_openParen hm hr
  | insideParen => exact goes_insideParen
  | identifier =>
    obtain ⟨hd, c, hh, hc, -⟩ := hm
    obtain ⟨cs, ha⟩ := List.head?_eq_some_iff.1 hh
    exact goes_word hd ha hc
  | number =>
    obtain ⟨hd, c, hh, hc⟩ := hm
    obtain ⟨cs, ha⟩ := List.head?_eq_some_iff.1 hh
    rw [step, if_pos (by simp [hh, hc])]
    exact goes_word hd ha (isWordChar_of_isDigit hc)
  | closeParen => exact goes_closeParen hm
  | whitespace => exact goes_whitespace hm
  | comment => exact goes_comment hm

end View

namespace Lexer

/-- The outcomes of a lexer's step from a mode that fits its view. -/
inductive Goes (l : Lexer) (m : Mode) : Step × Lexer → Prop
  | choose (m' : Mode) (k : Lexer) : m = .text ∨ m = .insideParen → k.view = l.view →
      l.view.Fits m' → Goes l m (k.goto m')
  | take (p : Piece) (m' : Mode) (k : Lexer) : Piece.first? l.view.depth l.view.ahead = some p →
      k.view = l.view.after p → (l.view.after p).Fits m' →
      Goes l m (⟨some ⟨p.kind, String.ofList p.text, l.position⟩, .proceed m'⟩, k)
  | fail (e : LexError) (k : Lexer) : m = l.between →
      Piece.first? l.view.depth l.view.ahead = none →
      l.view.munch.obstacle? l.view.ending = some e → k.view = l.view →
      Goes l m (⟨some (.error e.message l.position), .halt .failed⟩, k)
  | exhausted (k : Lexer) : m = l.between → Piece.first? l.view.depth l.view.ahead = none →
      l.view.munch.obstacle? l.view.ending = none → k.view = l.view →
      Goes l m (⟨none, .halt .exhausted⟩, k)

/-- **So a lexer's step goes the way of the pieces.** -/
theorem goes_step {l : Lexer} {m : Mode} (hm : l.view.Fits m) (hr : l.view.Room) :
    l.Goes m (l.step m) := by
  have hg := View.goes_step hm hr
  rw [← l.step_view m] at hg
  generalize l.step m = x at hg ⊢
  obtain ⟨o, k⟩ := x
  generalize hw : Prod.map id view (o, k) = w at hg
  cases hg with
  | choose m' hc hk =>
    obtain ⟨rfl, hv⟩ := Prod.mk.inj hw
    exact .choose m' k hc hv hk
  | take p m' hp hk =>
    obtain ⟨rfl, hv⟩ := Prod.mk.inj hw
    exact .take p m' k hp hv hk
  | fail e hb hp he =>
    obtain ⟨rfl, hv⟩ := Prod.mk.inj hw
    exact .fail e k hb hp he hv
  | exhausted hb hp he =>
    obtain ⟨rfl, hv⟩ := Prod.mk.inj hw
    exact .exhausted k hb hp he hv

end Lexer

end ParenLex
