import ParenLex.Proofs.Munch
import ParenLex.Proofs.View

/-!
# The shapes of pieces

The text of a piece is one of its kind, and a piece taken from a text goes on until something comes
that cannot be part of it.

* `head_of_shaped`: what a piece begins with tells its kind.
* `whole_openParen`, `whole_closeParen`, `whole_blanks`, `whole_comment`, `whole_word`: the pieces
  at the head of a text.
-/

namespace ParenLex

namespace Piece

/-- Every kind that is not structural is one of words. -/
def IsWord (p : Piece) : Prop :=
  p.kind ≠ .openParen ∧ p.kind ≠ .closeParen ∧ p.kind ≠ .whitespace ∧ p.kind ≠ .comment

/-- **The text of a piece is one of its kind.** -/
structure Shaped (p : Piece) : Prop where
  openParen : p.kind = .openParen → p.text = ['(']
  closeParen : p.kind = .closeParen → p.text = [')']
  whitespace : p.kind = .whitespace → p.text ≠ [] ∧ ∀ c ∈ p.text, isBlank c = true
  comment : p.kind = .comment → ∃ cs, p.text = ';' :: cs ∧ '\n' ∉ cs
  word : p.IsWord →
    p.text ≠ [] ∧ (∀ c ∈ p.text, isWordChar c = true) ∧ p.kind = .ofWord p.text

variable {p : Piece} {c : Char} {cs : List Char}

theorem isWord_of_ofWord (h : p.kind = .ofWord cs) : p.IsWord := by
  rcases Kind.ofWord_cases cs with hk | hk | hk | hk <;> simp [IsWord, h, hk]

/-- A piece of whichever kind. -/
theorem cases_kind (p : Piece) : p.kind = .openParen ∨ p.kind = .closeParen ∨
    p.kind = .whitespace ∨ p.kind = .comment ∨ p.IsWord := by
  unfold IsWord
  tauto

/-- A character that ends a piece. -/
structure Ends (p : Piece) (c : Char) : Prop where
  whitespace : p.kind = .whitespace → isBlank c = false
  comment : p.kind = .comment → c = '\n'
  word : p.IsWord → isWordChar c = false

theorem isWordChar_of_isBlank (h : isBlank c = true) : isWordChar c = false := by
  rw [← Bool.not_eq_true]
  intro hw
  have := ofChar_of_isWordChar hw
  simp [isBlank, this] at h

/-- What a piece begins with tells its kind. -/
theorem head_of_shaped (h : p.Shaped) (hc : p.text.head? = some c) :
    c = '(' ∨ c = ')' ∨ c = ';' ∨ p.kind = .whitespace ∧ isBlank c = true ∨
      p.IsWord ∧ isWordChar c = true := by
  rcases p.cases_kind with hk | hk | hk | hk | hk
  · rw [h.openParen hk] at hc
    exact .inl (Option.some.inj hc).symm
  · rw [h.closeParen hk] at hc
    exact .inr (.inl (Option.some.inj hc).symm)
  · have hb := (h.whitespace hk).2 c (List.mem_of_mem_head? hc)
    exact .inr (.inr (.inr (.inl ⟨hk, hb⟩)))
  · obtain ⟨cs, ht, -⟩ := h.comment hk
    rw [ht] at hc
    exact .inr (.inr (.inl (Option.some.inj hc).symm))
  · have hw := (h.word hk).2.1 c (List.mem_of_mem_head? hc)
    exact .inr (.inr (.inr (.inr ⟨hk, hw⟩)))

theorem text_ne_nil (h : p.Shaped) : p.text ≠ [] := by
  rcases p.cases_kind with hk | hk | hk | hk | hk
  · simp [h.openParen hk]
  · simp [h.closeParen hk]
  · exact (h.whitespace hk).1
  · obtain ⟨cs, ht, -⟩ := h.comment hk
    simp [ht]
  · exact (h.word hk).1

/-- The shape of a piece tells that it covers something of the input. -/
theorem plain_of_shaped (h : p.Shaped) : p.Plain := by
  have hk : p.kind = .error ∨ p.kind = .eof → False := by
    intro hk
    have hw : p.IsWord := by rcases hk with hk | hk <;> simp [IsWord, hk]
    have hkind := (h.word hw).2.2
    rcases Kind.ofWord_cases p.text with hx | hx | hx | hx <;> rw [hx] at hkind <;>
      simp [hkind] at hk
  exact ⟨text_ne_nil h, fun he => hk (.inl he), fun he => hk (.inr he)⟩

/-- **A piece at the head of a text that nothing more could be added to.** -/
structure Whole (p : Piece) (cs : List Char) : Prop where
  shaped : p.Shaped
  ends : ∀ c, (cs.drop p.text.length).head? = some c → p.Ends c

theorem whole_openParen (cs : List Char) : Whole ⟨.openParen, ['(']⟩ cs :=
  ⟨⟨fun _ => rfl, by simp, by simp, by simp, by simp [IsWord]⟩,
    fun c _ => ⟨by simp, by simp, by simp [IsWord]⟩⟩

theorem whole_closeParen (cs : List Char) : Whole ⟨.closeParen, [')']⟩ cs :=
  ⟨⟨by simp, fun _ => rfl, by simp, by simp, by simp [IsWord]⟩,
    fun c _ => ⟨by simp, by simp, by simp [IsWord]⟩⟩

/-- A longest run stops before a character that is not in the run. -/
theorem head?_drop_run {k : List Char → Kind} {r : Char → Bool} {c : Char}
    (h : (cs.drop (run k r cs).text.length).head? = some c) : r c = false := by
  have hn := cs.head?_dropWhile_not r
  rw [run, drop_takeWhile] at h
  rw [h] at hn
  exact hn

theorem whole_blanks (h : isBlank c = true) (cs : List Char) :
    (blanks (c :: cs)).Whole (c :: cs) := by
  have hk : (blanks (c :: cs)).kind = .whitespace := rfl
  have hw : ¬ (blanks (c :: cs)).IsWord := fun hw => hw.2.2.1 hk
  refine ⟨⟨by simp [hk], by simp [hk], fun _ => ⟨?_, ?_⟩, by simp [hk], (absurd · hw)⟩,
    fun d hd => ⟨fun _ => head?_drop_run hd, by simp [hk], (absurd · hw)⟩⟩
  · simp [blanks, run_of_pos h]
  · exact fun c hc => List.mem_takeWhile_imp hc

theorem whole_comment (cs : List Char) : (comment (';' :: cs)).Whole (';' :: cs) := by
  have hk : (comment (';' :: cs)).kind = .comment := rfl
  have hw : ¬ (comment (';' :: cs)).IsWord := fun hw => hw.2.2.2 hk
  refine ⟨⟨by simp [hk], by simp [hk], by simp [hk], fun _ => ?_, (absurd · hw)⟩,
    fun d hd => ⟨by simp [hk], fun _ => by simpa using head?_drop_run hd, (absurd · hw)⟩⟩
  refine ⟨cs.takeWhile (· ≠ '\n'), run_of_pos (by decide), fun hm => ?_⟩
  exact absurd (List.mem_takeWhile_imp hm) (by decide)

theorem whole_word (h : isWordChar c = true) (cs : List Char) :
    (word (c :: cs)).Whole (c :: cs) := by
  obtain ⟨h1, h2, h3, h4⟩ : (word (c :: cs)).IsWord := isWord_of_ofWord rfl
  refine ⟨⟨(absurd · h1), (absurd · h2), (absurd · h3), (absurd · h4), fun _ => ⟨?_, ?_, rfl⟩⟩,
    fun d hd => ⟨(absurd · h3), (absurd · h4), fun _ => head?_drop_run hd⟩⟩
  · simp [word, run_of_pos h]
  · exact fun c hc => List.mem_takeWhile_imp hc

end Piece

end ParenLex
