import ParenLex.Lexer.Basic

/-!
# Steps use up the input

A step that goes on either takes a character or moves to a mode closer to taking one: from
`insideParen` to `text` at depth zero, and from both to the mode of the next token. So the bytes to
come, counted three times, and a rank of the mode go down together.

* `budget_step`: every step that goes on lowers the budget.
-/

namespace ParenLex

/-- How many steps may pass before a character is taken. -/
def Mode.rank : Mode → Nat
  | text => 1
  | insideParen => 2
  | _ => 0

theorem Mode.rank_le (m : Mode) : m.rank ≤ 2 := by cases m <;> decide

namespace Lexer

/-- The bytes still to come. -/
def size (l : Lexer) : Nat := l.reader.size

/-- A bound on the steps that a lexer in this mode can go on for. -/
def budget (l : Lexer) (m : Mode) : Nat := 3 * l.size + m.rank

variable {l k : Lexer} {m : Mode}

theorem next_fail (l : Lexer) (e : LexError) : (l.fail e).1.next = .halt .failed := rfl

theorem next_unexpected (l : Lexer) : l.unexpected.1.next = .halt .failed := by
  unfold unexpected
  split <;> rfl

theorem size_of_peek {c : Option Char} (h : l.peek = (c, k)) : k.size ≤ l.size := by
  obtain rfl : { l with reader := l.reader.peek.2 } = k := (Prod.mk.inj h).2
  exact l.reader.size_peek_le

theorem size_of_takeWhile {p : Char → Bool} {cs : List Char} (h : l.takeWhile p = (cs, k)) :
    k.size + cs.length ≤ l.size := by
  obtain ⟨rfl, rfl⟩ := Prod.mk.inj h
  exact l.reader.size_takeWhile p

theorem size_of_accept {c : Char} {b : Bool} (h : l.accept c = (b, k)) :
    k.size + b.toNat ≤ l.size := by
  unfold accept at h
  split at h
  · next d r hr =>
    split at h
    · obtain ⟨rfl, rfl⟩ := Prod.mk.inj h
      exact Reader.size_of_next hr
    · obtain ⟨rfl, rfl⟩ := Prod.mk.inj h
      have := l.reader.size_backup_next
      simpa [hr, size] using this
  · next r hr =>
    obtain ⟨rfl, rfl⟩ := Prod.mk.inj h
    have := l.reader.size_next
    simpa [hr, size, Reader.charSize] using this

/-! ### Steps that choose -/

theorem step_text (h : l.text.1.next = .proceed m) :
    l.text.2.size ≤ l.size ∧ m.rank < Mode.rank .text := by
  unfold text at h ⊢
  split
  · next c k hp =>
    have := size_of_peek hp
    split <;> simp_all [goto, fail] <;> subst h <;> decide
  · next k hp =>
    have := size_of_peek hp
    simp only [hp] at h
    split at h <;> simp [fail] at h

theorem step_insideParen (h : l.insideParen.1.next = .proceed m) :
    l.insideParen.2.size ≤ l.size ∧ m.rank < Mode.rank .insideParen := by
  unfold insideParen at h ⊢
  split
  · simp_all [goto]
    subst h; decide
  · split
    · next c k hp =>
      have := size_of_peek hp
      split
      · simp_all [goto]; subst h; decide
      · split
        · simp_all [goto]; subst h; decide
        · split <;> simp_all [goto, next_unexpected] <;> subst h <;> decide
    · simp_all [next_unexpected]

/-! ### Steps that take a token -/

theorem size_openParen (h : l.openParen.1.next = .proceed m) : l.openParen.2.size < l.size := by
  unfold openParen at h ⊢
  split
  · next k ha =>
    split <;> exact size_of_accept ha
  · simp_all [next_unexpected]

theorem size_closeParen (h : l.closeParen.1.next = .proceed m) : l.closeParen.2.size < l.size := by
  unfold closeParen at h ⊢
  split
  · simp_all [next_fail]
  · split
    · next k ha => exact size_of_accept ha
    · simp_all [next_unexpected]

theorem size_identifier (h : l.identifier.1.next = .proceed m) : l.identifier.2.size < l.size := by
  unfold identifier at h ⊢
  split
  · simp_all [next_unexpected]
  · next word k hne ht =>
    have h1 := size_of_takeWhile ht
    have := List.length_pos_iff.2 hne
    simp [emit, size] at h1 ⊢; omega

theorem size_of_fraction? {ds : Option (List Char)} (h : l.fraction? = (ds, k)) :
    k.size ≤ l.size := by
  unfold fraction? at h
  split at h
  · next k1 ha =>
    have h1 := size_of_accept ha
    have h2 := size_of_takeWhile (l := k1) (k := (k1.takeWhile isDigit).2) (p := isDigit) rfl
    obtain ⟨-, rfl⟩ := Prod.mk.inj h
    simp at h1; omega
  · next k1 ha =>
    obtain ⟨-, rfl⟩ := Prod.mk.inj h
    simpa using size_of_accept ha

theorem size_number (h : l.number.1.next = .proceed m) : l.number.2.size < l.size := by
  unfold number at h ⊢
  split
  · simp_all [next_unexpected]
  · next digits k hne ht =>
    have h1 := size_of_takeWhile ht
    have := List.length_pos_iff.2 hne
    split
    next fraction k1 hf =>
    have h2 := size_of_fraction? hf
    split
    next rest k2 hr =>
    have h3 := size_of_takeWhile hr
    simp [emit, size] at h1 h2 h3 ⊢; omega

theorem size_whitespace (h : l.whitespace.1.next = .proceed m) : l.whitespace.2.size < l.size := by
  unfold whitespace at h ⊢
  split
  · simp_all [next_unexpected]
  · next blanks k hne ht =>
    have h1 := size_of_takeWhile ht
    have := List.length_pos_iff.2 hne
    simp [emit, size] at h1 ⊢; omega

theorem size_comment (h : l.comment.1.next = .proceed m) : l.comment.2.size < l.size := by
  unfold comment at h ⊢
  split
  · next k ha =>
    have h1 := size_of_accept ha
    split
    next body k1 ht =>
    have h2 := size_of_takeWhile ht
    split
    · next c k2 hp =>
      have h3 := size_of_peek hp
      simp [emit, size] at h1 h2 h3 ⊢; omega
    · next k2 hp =>
      have h3 := size_of_peek hp
      simp [emit, size] at h1 h2 h3 ⊢; omega
  · simp_all [next_unexpected]

/-- **Every step that goes on lowers the budget.** -/
theorem budget_step {m' : Mode} (h : (l.step m).1.next = .proceed m') :
    (l.step m).2.budget m' < l.budget m := by
  have hr := m'.rank_le
  suffices (l.step m).2.size < l.size ∨
      (l.step m).2.size ≤ l.size ∧ m'.rank < m.rank by unfold budget; omega
  cases m with
  | text => exact .inr (step_text h)
  | insideParen => exact .inr (step_insideParen h)
  | openParen => exact .inl (size_openParen h)
  | closeParen => exact .inl (size_closeParen h)
  | identifier => exact .inl (size_identifier h)
  | number => exact .inl (size_number h)
  | whitespace => exact .inl (size_whitespace h)
  | comment => exact .inl (size_comment h)

end Lexer

end ParenLex
