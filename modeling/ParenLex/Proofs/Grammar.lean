import ParenLex.Proofs.Tokens

/-!
# The grammar, one character at a time

An automaton with a depth and a flag for comments reads a text once, and says where the text first
leaves the grammar, or how deep it ends.

* `verdict_eq`: the pieces of a text end where the automaton finds the first violation.
* `last_token`: the last token of a text is the one that the automaton decides.
-/

namespace ParenLex

open Piece (texts layout)

namespace Grammar

/-- The parens open, and whether a comment is. -/
structure State where
  depth : Nat
  inComment : Bool
  deriving DecidableEq

namespace State

def start : State := ⟨0, false⟩

/-- The state after a character, if the character may stand there. -/
def next? (s : State) (c : Char) : Option State :=
  if s.inComment then some { s with inComment := c ≠ '\n' }
  else if c = ';' then some { s with inComment := true }
  else if c = ' ' ∨ c = '\t' ∨ c = '\r' ∨ c = '\n' then some s
  else if c = '(' then some { s with depth := s.depth + 1 }
  else if s.depth = 0 then none
  else if c = ')' then some { s with depth := s.depth - 1 }
  else if isWordChar c then some s
  else none

end State

/-- What a text comes to: a first character that may not stand where it does, or its end. -/
inductive Verdict
  | violation (c : Char) (offset depth : Nat)
  | ended (depth : Nat)
  deriving DecidableEq

/-- **Reads a text from an offset on.** -/
def verdict (s : State) (n : Nat) : List Char → Verdict
  | [] => .ended s.depth
  | c :: cs =>
    match s.next? c with
    | some t => verdict t (n + c.utf8Size) cs
    | none => .violation c n s.depth

/-- The kind, text and offset of the last token of a text of `size` bytes. -/
def Verdict.token (size : Nat) : Verdict → Kind × String × Nat
  | violation c n d =>
    (.error, if d = 0 then
        "Unexpected sequence: " ++ String.ofList (Text.Hex.ofBytes (String.utf8EncodeChar c))
      else "Unexpected " ++ c.toString, n)
  | ended d => if d = 0 then (.eof, "", size) else (.error, "Unexpected EOF", size)

variable {s : State} {d n : Nat} {c : Char} {cs : List Char} {p : Piece}

/-- Characters that leave the state alone are skipped. -/
theorem verdict_skip {q : Char → Bool} (h : ∀ c, q c = true → s.next? c = some s) (n : Nat)
    (cs : List Char) : verdict s n cs =
      verdict s (n + byteSize (cs.takeWhile q)) (cs.dropWhile q) := by
  induction cs generalizing n with
  | nil => rfl
  | cons c cs ih =>
    by_cases hc : q c = true
    · rw [List.takeWhile_cons_of_pos hc, List.dropWhile_cons_of_pos hc, verdict, h c hc]
      simp only
      rw [ih, byteSize_cons, Nat.add_assoc]
    · rw [List.takeWhile_cons_of_neg hc, List.dropWhile_cons_of_neg hc, byteSize_nil, Nat.add_zero]

/-- A comment that ends with its line, or with the text, leaves nothing behind. -/
theorem verdict_comment (d n : Nat) (cs : List Char) :
    verdict ⟨d, true⟩ n (cs.dropWhile (· ≠ '\n')) =
      verdict ⟨d, false⟩ n (cs.dropWhile (· ≠ '\n')) := by
  have h := cs.head?_dropWhile_not (· ≠ '\n')
  rcases hd : cs.dropWhile (· ≠ '\n') with _ | ⟨c, ds⟩
  · rfl
  · rw [hd] at h
    have hc : c = '\n' := by simpa using h
    rw [hc]; rfl

theorem next?_blank (h : isBlank c = true) : State.next? ⟨d, false⟩ c = some ⟨d, false⟩ := by
  have hc : c ≠ ';' := by rintro rfl; exact absurd h (by decide)
  simp [State.next?, hc, isBlank_iff.1 h]

theorem next?_word (hd : d ≠ 0) (h : isWordChar c = true) :
    State.next? ⟨d, false⟩ c = some ⟨d, false⟩ := by
  have he := ofChar_of_isWordChar h
  have h1 : c ≠ ';' := by rintro rfl; cases he
  have h2 : ¬ (c = ' ' ∨ c = '\t' ∨ c = '\r' ∨ c = '\n') := by
    rw [← isBlank_iff]; simp [isBlank, he]
  have h3 : c ≠ '(' := by rintro rfl; cases he
  have h4 : c ≠ ')' := by rintro rfl; cases he
  simp [State.next?, h1, h2, h3, h4, hd, h]

/-- **The automaton reads a piece and is outside of comments again.** -/
theorem verdict_piece (h : Piece.first? d cs = some p) : verdict ⟨d, false⟩ n cs =
    verdict ⟨p.depthAfter d, false⟩ (n + byteSize p.text) (cs.drop p.text.length) := by
  cases cs with
  | nil => cases h
  | cons c cs =>
    simp only [Piece.first?] at h
    split_ifs at h with h1 h2 h3 h4 h5 h6 <;> obtain rfl := Option.some.inj h
    · subst h1; rfl
    · rw [verdict_skip (fun _ => next?_blank) n (c :: cs)]
      simp only [Piece.blanks, Piece.run, drop_takeWhile]
      rfl
    · subst h3
      have hs : ∀ c, decide (c ≠ '\n') = true → State.next? ⟨d, true⟩ c = some ⟨d, true⟩ := by
        intro c hc
        simpa [State.next?] using hc
      have hp : (';' :: cs).takeWhile (· ≠ '\n') = ';' :: cs.takeWhile (· ≠ '\n') := by simp
      simp only [Piece.comment, Piece.run, hp, List.length_cons, List.drop_succ_cons,
        drop_takeWhile]
      refine ((verdict_skip hs (n + 1) cs).trans (verdict_comment d _ cs)).trans ?_
      rw [byteSize_cons, Nat.add_assoc]
      rfl
    · subst h5
      simp [verdict, State.next?, h4, Piece.depthAfter]
    · rw [verdict_skip (fun _ => next?_word h4) n (c :: cs), Piece.depthAfter_word]
      simp only [Piece.word, Piece.run, drop_takeWhile]

theorem next?_of_first? (h : Piece.first? d (c :: cs) = none) :
    State.next? ⟨d, false⟩ c = none := by
  simp only [Piece.first?] at h
  split_ifs at h with h1 h2 h3 h4 h5 h6
  · rw [isBlank_iff] at h2
    simp [State.next?, h1, h2, h3, h4]
  · rw [isBlank_iff] at h2
    simp [State.next?, h1, h2, h3, h4, h5, h6]

/-- **The first violation stands where the pieces end.** -/
theorem verdict_eq (d n : Nat) (cs : List Char) : verdict ⟨d, false⟩ n cs =
    match (munch d cs).rest with
    | [] => .ended (munch d cs).depth
    | c :: _ => .violation c (n + byteSize (texts (munch d cs).pieces)) (munch d cs).depth := by
  fun_induction munch d cs generalizing n with
  | case1 d cs h =>
    -- a text that no piece begins is over, or its first character may not stand there
    cases cs with
    | nil => rfl
    | cons c cs =>
      rw [verdict, next?_of_first? h]
      rfl
  | case2 d cs p h m ih =>
    rw [verdict_piece h, ih, Piece.texts_cons, byteSize_append, Nat.add_assoc]

/-- **The last token of a text is the one that the automaton decides**, and its scan gives a good
result. -/
theorem last_token {text : String} (h : text.utf8ByteSize ≤ counterMax) :
    ∃ ts t, tokenize? text = .ok (ts ++ [t]) ∧ (t.kind, t.text, t.position.offset) =
      (verdict .start 0 text.toList).token text.utf8ByteSize := by
  obtain ⟨h1, h2⟩ := tokenize_eq h
  have hv := verdict_eq 0 0 text.toList
  have ht := texts_munch 0 text.toList
  have ho (cs : List Char) : (Place.start.advance cs).position.offset = byteSize cs :=
    Nat.zero_add _
  rw [h1, h2, Munch.tokens, Munch.closing]
  generalize munch 0 text.toList = m at hv ht
  rw [State.start, hv, Munch.obstacle?]
  rcases hr : m.rest with _ | ⟨c, rest⟩
  · rw [hr, List.append_nil] at ht
    rw [← Utf8.byteSize_toList, ← ht]
    by_cases hd : m.depth = 0
    · refine ⟨layout .start m.pieces, .eof (Place.start.advance (texts m.pieces)).position, ?_, ?_⟩
      · simp [hd]
      · simp [Verdict.token, hd, Token.eof, ho]
    · refine ⟨layout .start m.pieces, .error LexError.endOfInput.message
        (Place.start.advance (texts m.pieces)).position, ?_, ?_⟩
      · simp [hd]
      · simp only [Verdict.token, if_neg hd, Token.error, ho]
        rfl
  · refine ⟨_, _, rfl, ?_⟩
    simp only [Verdict.token, Token.error, ho, Nat.zero_add]
    by_cases hd : m.depth = 0
    · rw [if_pos hd, if_pos hd]; rfl
    · rw [if_neg hd, if_neg hd]; rfl

/-- The first violation of `(é`. -/
theorem last_token_violation : "(é".utf8ByteSize ≤ counterMax ∧ ∃ ts t,
    tokenize? "(é" = .ok (ts ++ [t]) ∧ (t.kind, t.text, t.position.offset) =
      (.error, "Unexpected é", 1) :=
  ⟨by decide, last_token (by decide)⟩

end Grammar

end ParenLex
