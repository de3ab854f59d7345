import ParenLex.LexError
import ParenLex.Proofs.Delivery
import ParenLex.Proofs.Numeral
import ParenLex.Proofs.Place
import ParenLex.Token

/-!
# Texts in pieces

Without modes, lexing is taking the longest piece at the head of the text, over and over, until none
can be taken. Depth alone decides which pieces may stand where.

* `text_first?`: a piece is taken from the head of the text and covers some of it.
* `texts_munch`: the pieces and what is left make up the text.
* `obstacle?_eq_none`: where nothing is in the way, the text has ended with all parens closed.
-/

namespace ParenLex

/-- A kind with the characters that it covers. -/
structure Piece where
  kind : Kind
  text : List Char
  deriving DecidableEq

/-- The kinds of words. -/
theorem Kind.ofWord_cases (cs : List Char) : Kind.ofWord cs = .identifier ∨ Kind.ofWord cs = .bool ∨
    Kind.ofWord cs = .integer ∨ Kind.ofWord cs = .decimal := by
  unfold Kind.ofWord
  split
  · next l n h =>
    split
    · cases l <;> simp [Literal.kind]
    · exact .inl rfl
  · exact .inl rfl

namespace Piece

/-- The depth after a piece. -/
def depthAfter (p : Piece) (d : Nat) : Nat :=
  match p.kind with
  | .openParen => d + 1
  | .closeParen => d - 1
  | _ => d

/-- The longest run of characters in `q`, as a piece. -/
def run (k : List Char → Kind) (q : Char → Bool) (cs : List Char) : Piece :=
  ⟨k (cs.takeWhile q), cs.takeWhile q⟩

def blanks : List Char → Piece := run (fun _ => .whitespace) isBlank

def comment : List Char → Piece := run (fun _ => .comment) (· ≠ '\n')

def word : List Char → Piece := run .ofWord isWordChar

/-- The piece at the head of a text. -/
def first? (d : Nat) : List Char → Option Piece
  | [] => none
  | c :: cs =>
    if c = '(' then some ⟨.openParen, ['(']⟩
    else if isBlank c then some (blanks (c :: cs))
    else if c = ';' then some (comment (c :: cs))
    else if d = 0 then none
    else if c = ')' then some ⟨.closeParen, [')']⟩
    else if isWordChar c then some (word (c :: cs))
    else none

/-- The characters that pieces cover. -/
def texts (ps : List Piece) : List Char := ps.flatMap text

@[simp] theorem texts_nil : texts [] = [] := rfl

@[simp] theorem texts_cons (p : Piece) (ps : List Piece) : texts (p :: ps) = p.text ++ texts ps :=
  rfl

/-- The tokens that pieces make when they are laid out from a place on. -/
def layout (start : Place) : List Piece → List Token
  | [] => []
  | p :: ps => ⟨p.kind, String.ofList p.text, start.position⟩ :: layout (start.advance p.text) ps

variable {d : Nat} {cs : List Char} {p : Piece}

theorem run_of_pos {k : List Char → Kind} {q : Char → Bool} {c : Char} (h : q c = true) :
    (run k q (c :: cs)).text = c :: cs.takeWhile q := List.takeWhile_cons_of_pos h

theorem depthAfter_le (p : Piece) (d : Nat) : p.depthAfter d ≤ d + 1 := by
  unfold depthAfter
  split <;> omega

/-- A piece that is no paren leaves the depth alone. -/
theorem depthAfter_of_ne (h1 : p.kind ≠ .openParen) (h2 : p.kind ≠ .closeParen) (d : Nat) :
    p.depthAfter d = d := by
  unfold depthAfter
  split
  · contradiction
  · contradiction
  · rfl

/-- Words leave the depth alone. -/
theorem depthAfter_word (d : Nat) (cs : List Char) : (word cs).depthAfter d = d := by
  unfold depthAfter word run
  rcases Kind.ofWord_cases (cs.takeWhile isWordChar) with h | h | h | h <;> simp [h]

/-! ### The first piece, by the first character -/

variable {c : Char}

theorem first?_openParen (d : Nat) (cs : List Char) :
    first? d ('(' :: cs) = some ⟨.openParen, ['(']⟩ := rfl

theorem first?_comment (d : Nat) (cs : List Char) :
    first? d (';' :: cs) = some (comment (';' :: cs)) := rfl

theorem first?_blank (d : Nat) (cs : List Char) (h : isBlank c = true) :
    first? d (c :: cs) = some (blanks (c :: cs)) := by
  have h1 : c ≠ '(' := by rintro rfl; exact absurd h (by decide)
  simp [first?, h1, h]

theorem first?_closeParen (cs : List Char) (hd : 0 < d) :
    first? d (')' :: cs) = some ⟨.closeParen, [')']⟩ := by
  have h1 : isBlank ')' = false := by decide
  have h2 : d ≠ 0 := by omega
  simp [first?, h1, h2]

theorem first?_word (cs : List Char) (hd : 0 < d) (h : isWordChar c = true) :
    first? d (c :: cs) = some (word (c :: cs)) := by
  have he := ofChar_of_isWordChar h
  have h1 : c ≠ '(' := by rintro rfl; cases he
  have h2 : isBlank c = false := by simp [isBlank, he]
  have h3 : c ≠ ';' := by rintro rfl; cases he
  have h4 : c ≠ ')' := by rintro rfl; cases he
  have h5 : d ≠ 0 := by omega
  simp [first?, h1, h2, h3, h4, h5, h]

theorem text_first? (h : first? d cs = some p) : p.text ≠ [] ∧ p.text <+: cs := by
  cases cs with
  | nil => cases h
  | cons c cs =>
    simp only [first?] at h
    split_ifs at h with h1 h2 h3 h4 h5 h6 <;> obtain rfl := Option.some.inj h
    · exact ⟨by simp, by simp [h1]⟩
    · exact ⟨by simp [blanks, run_of_pos h2], List.takeWhile_prefix _⟩
    · exact ⟨by simp [comment, run, h3], List.takeWhile_prefix _⟩
    · exact ⟨by simp, by simp [h5]⟩
    · exact ⟨by simp [word, run_of_pos h6], List.takeWhile_prefix _⟩

/-- A piece has a text, and is neither an error nor the end of the input. -/
structure Plain (p : Piece) : Prop where
  text : p.text ≠ []
  error : p.kind ≠ .error
  eof : p.kind ≠ .eof

theorem plain_first? (h : first? d cs = some p) : p.Plain := by
  refine ⟨(text_first? h).1, ?_, ?_⟩
  all_goals
    cases cs with
    | nil => cases h
    | cons c cs =>
      simp only [first?] at h
      split_ifs at h with h1 h2 h3 h4 h5 h6 <;> obtain rfl := Option.some.inj h
      · simp
      · simp [blanks, run]
      · simp [comment, run]
      · simp
      · rcases Kind.ofWord_cases ((c :: cs).takeWhile isWordChar) with hk | hk | hk | hk <;>
          simp [word, run, hk]

end Piece

/-- The pieces taken from a text one after another, the depth after them, and what is left. -/
structure Munch where
  pieces : List Piece
  depth : Nat
  rest : List Char

/-- **Takes pieces as long as there are any.** -/
def munch (d : Nat) (cs : List Char) : Munch :=
  match _h : Piece.first? d cs with
  | none => ⟨[], d, cs⟩
  | some p =>
    let m := munch (p.depthAfter d) (cs.drop p.text.length)
    { m with pieces := p :: m.pieces }
termination_by cs.length
decreasing_by
  obtain ⟨h1, h2⟩ := Piece.text_first? _h
  have := List.length_pos_iff.2 h1
  have := h2.length_le
  simp; omega

variable {d : Nat} {cs : List Char} {p : Piece}

theorem munch_of_none (h : Piece.first? d cs = none) : munch d cs = ⟨[], d, cs⟩ := by
  rw [munch]; split <;> simp_all

theorem munch_of_some (h : Piece.first? d cs = some p) : munch d cs =
    { munch (p.depthAfter d) (cs.drop p.text.length) with
      pieces := p :: (munch (p.depthAfter d) (cs.drop p.text.length)).pieces } := by
  rw [munch]; split <;> simp_all

/-- **The pieces and what is left make up the text.** -/
theorem texts_munch (d : Nat) (cs : List Char) :
    Piece.texts (munch d cs).pieces ++ (munch d cs).rest = cs := by
  fun_induction munch d cs with
  | case1 d cs h => rfl
  | case2 d cs p h m ih =>
    obtain ⟨rest, rfl⟩ := (Piece.text_first? h).2
    simp only [Piece.texts_cons, List.append_assoc]
    rw [ih, List.drop_left]

theorem plain_munch (d : Nat) (cs : List Char) : ∀ p ∈ (munch d cs).pieces, p.Plain := by
  fun_induction munch d cs with
  | case1 d cs h => simp
  | case2 d cs p h m ih => exact List.forall_mem_cons.2 ⟨Piece.plain_first? h, ih⟩

namespace Munch

/-- What stands in the way of more pieces, unless the text has ended as it should. -/
def obstacle? (m : Munch) (e : Feed.Ending) : Option LexError :=
  match m.rest with
  | c :: _ => some (if m.depth = 0 then .bytes (String.utf8EncodeChar c) else .character c)
  | [] =>
    if e.bytes ≠ [] then some (.bytes e.bytes)
    else if m.depth = 0 then none
    else some .endOfInput

theorem obstacle?_eq_none {m : Munch} {e : Feed.Ending} :
    m.obstacle? e = none ↔ m.rest = [] ∧ e.bytes = [] ∧ m.depth = 0 := by
  unfold obstacle?
  cases m.rest with
  | cons c cs => simp
  | nil =>
    by_cases hb : e.bytes = []
    · by_cases hd : m.depth = 0 <;> simp [hb, hd]
    · simp [hb]

end Munch

end ParenLex
