import Mathlib.Data.List.DropRight
import ParenLex.Proofs.Extension

/-!
# Texts one after another

A text that has ended at the top level leaves nothing behind but where it ended. The tokens of a
text that follows it are those that it makes by itself, moved to where it begins, unless its first
characters go on with the last token of the text before.

* `munch_join`: the pieces of a text after pieces that it does not go on with.
* `position_behind`: where a place is when a text is put before it.
* `tokenize_join`: the tokens of two texts, one after the other.
-/

namespace ParenLex

open Piece (texts layout)

/-- The characters after the last line feed. -/
def lastLine (cs : List Char) : List Char := cs.rtakeWhile (· ≠ '\n')

/-- A position when a text is put before it: its line and its offset move on, and its column does if
it is on the first line. -/
def Position.behind (cs : List Char) (p : Position) : Position where
  line := p.line + cs.count '\n'
  column := if p.line = 1 then p.column + byteSize (lastLine cs) else p.column
  offset := p.offset + byteSize cs

/-- A token when a text is put before it. -/
def Token.behind (cs : List Char) (t : Token) : Token := { t with position := t.position.behind cs }

/-- **Text that does not go on with the last token**: a close paren is complete, blanks go on with
blanks, and a comment with all but a line feed. -/
def Token.Joins (ts : List Token) (cs : List Char) : Prop :=
  ∀ t, ts.getLast? = some t → t.kind = .closeParen ∨
    (t.kind = .whitespace ∧ ∀ c, cs.head? = some c → isBlank c = false) ∨
    (t.kind = .comment ∧ ∀ c, cs.head? = some c → c = '\n')

/-! ### Places -/

theorem lastLine_lineFeed (cs : List Char) : lastLine (cs ++ ['\n']) = [] :=
  List.rtakeWhile_concat_neg _ _ _ (by decide)

theorem lastLine_concat {c : Char} (h : c ≠ '\n') (cs : List Char) :
    lastLine (cs ++ [c]) = lastLine cs ++ [c] :=
  List.rtakeWhile_concat_pos _ _ _ (by simpa using h)

/-- The last line goes on until the next line feed. -/
theorem lastLine_append (cs ds : List Char) :
    lastLine (cs ++ ds) = if '\n' ∈ ds then lastLine ds else lastLine cs ++ ds := by
  induction ds using List.reverseRecOn with
  | nil => simp
  | append_singleton ds c ih =>
    rw [← List.append_assoc]
    by_cases hc : c = '\n'
    · subst hc
      rw [lastLine_lineFeed, lastLine_lineFeed, if_pos (by simp)]
    · have hmem : '\n' ∈ ds ++ [c] ↔ '\n' ∈ ds := by simp [Ne.symm hc]
      rw [lastLine_concat hc, lastLine_concat hc, ih]
      simp only [hmem]
      split
      · rfl
      · rw [List.append_assoc]

/-- A text without line feeds is one line. -/
theorem lastLine_of_not_mem {cs : List Char} (h : '\n' ∉ cs) : lastLine cs = cs := by
  rw [lastLine, List.rtakeWhile_eq_self_iff]
  intro c hc
  simpa using ne_of_mem_of_not_mem hc h

namespace Place

theorem line_start_add (cs : List Char) :
    (start.advance cs).line.start + byteSize (lastLine cs) = byteSize cs := by
  induction cs using List.reverseRecOn with
  | nil => rfl
  | append_singleton cs c ih =>
    rw [advance_append]
    by_cases hc : c = '\n'
    · subst hc
      rw [lastLine_lineFeed]
      simp [advance, Line.advance, start]
    · rw [advance_of_not_mem (by simpa using Ne.symm hc), lastLine_concat hc, byteSize_append,
        byteSize_append, ← ih, Nat.add_assoc]

/-- The position that a text leads to. -/
theorem position_advance (cs : List Char) : (start.advance cs).position =
    ⟨1 + cs.count '\n', byteSize (lastLine cs), byteSize cs⟩ := by
  have hline : (start.advance cs).line.number = 1 + cs.count '\n' := Line.number_advance _ _ _
  have hoffset : (start.advance cs).offset = byteSize cs := Nat.zero_add _
  have hstart := line_start_add cs
  rw [position, hline, hoffset, Position.mk.injEq]
  exact ⟨rfl, by omega, rfl⟩

/-- **A place in a text that another is put before.** -/
theorem position_behind (cs ds : List Char) : (start.advance (cs ++ ds)).position =
    (start.advance ds).position.behind cs := by
  have hfirst : 1 + ds.count '\n' = 1 ↔ '\n' ∉ ds := by
    rw [← List.count_eq_zero]
    omega
  rw [position_advance, position_advance, Position.behind, lastLine_append]
  simp only [List.count_append, byteSize_append, hfirst, Position.mk.injEq]
  refine ⟨by omega, ?_, by omega⟩
  by_cases hmem : '\n' ∈ ds
  · simp [hmem]
  · rw [if_neg hmem, if_pos hmem, lastLine_of_not_mem hmem, byteSize_append, Nat.add_comm]

end Place

/-! ### Tokens -/

theorem Piece.layout_behind (cs ds : List Char) (ps : List Piece) :
    layout (Place.start.advance (cs ++ ds)) ps =
      (layout (Place.start.advance ds) ps).map (Token.behind cs) := by
  induction ps generalizing ds with
  | nil => rfl
  | cons p ps ih =>
    have hrest := ih (ds ++ p.text)
    rw [← List.append_assoc, Place.advance_append _ (cs ++ ds), Place.advance_append _ ds] at hrest
    rw [layout, layout, List.map_cons, hrest, Place.position_behind]
    rfl

namespace Munch

variable {d : Nat} {cs ds : List Char} {m : Munch} {e : Feed.Ending} {b : Bool}

theorem closing_behind (m : Munch) (e : Feed.Ending) (cs ds : List Char) (b : Bool) :
    m.closing e (Place.start.advance (cs ++ ds)) b =
      (m.closing e (Place.start.advance ds) b).map (Token.behind cs) := by
  unfold closing
  rw [Place.position_behind]
  cases m.obstacle? e with
  | none => rfl
  | some o => cases b <;> rfl

/-- **The tokens that a text makes behind another** are its own, moved there. -/
theorem tokens_behind (m : Munch) (e : Feed.Ending) (cs : List Char) (b : Bool) :
    m.tokens e (Place.start.advance cs) b = (m.tokens e .start b).map (Token.behind cs) := by
  have hpieces := Piece.layout_behind cs [] m.pieces
  have hclosing := m.closing_behind e cs (texts m.pieces) b
  rw [List.append_nil, Place.advance_nil] at hpieces
  rw [tokens, tokens, List.map_append, hpieces, ← hclosing, Place.advance_append]

theorem tokens_prepend (ps : List Piece) (m : Munch) (e : Feed.Ending) (start : Place) (b : Bool) :
    (m.prepend ps).tokens e start b =
      layout start ps ++ m.tokens e (start.advance (texts ps)) b := by
  simp only [tokens, prepend, Piece.layout_append, Piece.texts_append, Place.advance_append,
    List.append_assoc]
  rfl

/-- **Pieces with nothing after them stay what they are** if the text that comes next ends the last
of them, and it is munched as if alone, at the depth that they leave. -/
theorem munch_join (hr : (munch d cs).rest = [])
    (he : ∀ p, (munch d cs).pieces.getLast? = some p → ∀ c, ds.head? = some c → p.Ends c) :
    munch d (cs ++ ds) = (munch (munch d cs).depth ds).prepend (munch d cs).pieces := by
  fun_induction munch d cs with
  | case1 d cs h =>
    obtain rfl : cs = [] := hr
    rfl
  | case2 d cs p h m ih =>
    have hlen : p.text.length ≤ cs.length := (Piece.text_first? h).2.length_le
    have hends : ∀ c, (cs.drop p.text.length ++ ds).head? = some c → p.Ends c := by
      intro c hc
      rcases hd : cs.drop p.text.length with _ | ⟨c', cs'⟩
      · -- the piece is the last one
        rw [hd, List.nil_append] at hc
        have hm : m.pieces = [] := by
          show (munch _ (cs.drop p.text.length)).pieces = []
          rw [hd, munch_of_none rfl]
        exact he p (by rw [hm]; rfl) c hc
      · rw [List.head?_append_of_ne_nil _ (by simp [hd])] at hc
        exact (Piece.whole_first? h).1.ends c hc
    have hlast : ∀ q, m.pieces.getLast? = some q → ∀ c, ds.head? = some c → q.Ends c := by
      intro q hq
      refine he q ?_
      rw [List.getLast?_cons, hq]
      rfl
    have hrest := ih hr hlast
    rw [munch_eq_prepend (Piece.first?_append_of_ends h ds hends),
      List.drop_append_of_le_length hlen, hrest, prepend_cons]

/-- Where the end of the input comes last, all of the text is pieces, and their parens are closed. -/
theorem of_tokens_eof {start : Place} {ts : List Token} {t : Token}
    (h : m.tokens e start false = ts ++ [t]) (ht : t.kind = .eof) :
    ts = layout start m.pieces ∧ m.rest = [] ∧ m.depth = 0 := by
  rw [tokens, closing] at h
  cases ho : m.obstacle? e with
  | none =>
    rw [ho] at h
    obtain ⟨hr, -, hd⟩ := obstacle?_eq_none.1 ho
    exact ⟨(List.append_inj' h rfl).1.symm, hr, hd⟩
  | some o =>
    -- the last token would be an error
    rw [ho] at h
    obtain ⟨-, hlast⟩ := List.append_inj' h rfl
    obtain rfl := (List.cons.inj hlast).1
    cases ht

end Munch

/-- What does not go on with the last token ends its piece. -/
theorem Token.Joins.ends {start : Place} {ps : List Piece} {cs : List Char}
    (h : Token.Joins (layout start ps) cs) : ∀ p, ps.getLast? = some p →
      ∀ c, cs.head? = some c → p.Ends c := by
  intro p hp c hc
  obtain ⟨before, rfl⟩ := List.getLast?_eq_some_iff.1 hp
  rw [Piece.layout_append] at h
  rcases h _ List.getLast?_concat with hk | ⟨hk, hb⟩ | ⟨hk, hb⟩
  · have hk : p.kind = .closeParen := hk
    exact ⟨by simp [hk], by simp [hk], fun hw => absurd hk hw.2.1⟩
  · have hk : p.kind = .whitespace := hk
    exact ⟨fun _ => hb c hc, by simp [hk], fun hw => absurd hk hw.2.2.1⟩
  · have hk : p.kind = .comment := hk
    exact ⟨by simp [hk], fun _ => hb c hc, fun hw => absurd hk hw.2.2.2⟩

/-- **Texts are lexed one after another.** Where the first has come to its end, at the top level, and
the second does not go on with its last token, the tokens of both together are those of the first up
to the end of the input, and those of the second moved to where it begins, errors and the end of the
input among them. -/
theorem tokenize_join {s u : String} {ts : List Token} {t : Token}
    (h : s.utf8ByteSize + u.utf8ByteSize ≤ counterMax) (hs : tokenize? s = .ok (ts ++ [t]))
    (ht : t.kind = .eof) (hj : Token.Joins ts u.toList) :
    ∃ us, tokenize? u = .ok us ∧
      tokenize? (s ++ u) = .ok (ts ++ us.map (Token.behind s.toList)) := by
  obtain ⟨hs1, hs2⟩ := @tokenize_eq s (by omega)
  obtain ⟨hu1, hu2⟩ := @tokenize_eq u (by omega)
  obtain ⟨hsu1, hsu2⟩ := @tokenize_eq (s ++ u) (by rw [String.utf8ByteSize_append]; exact h)
  rw [hs1, hs2] at hs
  obtain ⟨rfl, hr, hd⟩ := Munch.of_tokens_eof (Except.ok.inj hs) ht
  have htexts := texts_munch 0 s.toList
  rw [hr, List.append_nil] at htexts
  refine ⟨_, hu1, ?_⟩
  rw [hsu1, hsu2, hu2, String.toList_append, Munch.munch_join hr hj.ends, hd, Munch.tokens_prepend,
    htexts, Munch.tokens_behind]

/-- A comment on the second line, and a text that goes on after it with an error. -/
theorem tokenize_join_comment :
    let us : List Token := [⟨.whitespace, "\n", ⟨1, 0, 0⟩⟩, ⟨.openParen, "(", ⟨2, 0, 1⟩⟩,
      ⟨.error, "Unexpected EOF", ⟨2, 1, 2⟩⟩]
    let ts : List Token := [⟨.openParen, "(", ⟨1, 0, 0⟩⟩, ⟨.closeParen, ")", ⟨1, 1, 1⟩⟩,
      ⟨.whitespace, "\n", ⟨1, 2, 2⟩⟩, ⟨.comment, ";é", ⟨2, 0, 3⟩⟩]
    Token.Joins ts "\n(".toList ∧ tokenize? "\n(" = .ok us ∧
      tokenize? ("()\n;é" ++ "\n(") = .ok (ts ++ [⟨.whitespace, "\n", ⟨2, 3, 6⟩⟩,
        ⟨.openParen, "(", ⟨3, 0, 7⟩⟩, ⟨.error, "Unexpected EOF", ⟨3, 1, 8⟩⟩]) := by
  intro us ts
  have hs : tokenize "()\n;é" = ts ++ [⟨.eof, "", ⟨2, 3, 6⟩⟩] := by decide +kernel
  have hu : tokenize "\n(" = us := by decide +kernel
  have hs : tokenize? "()\n;é" = _ := (tokenize_eq (by decide)).1.trans (congrArg Except.ok hs)
  have hu : tokenize? "\n(" = _ := (tokenize_eq (by decide)).1.trans (congrArg Except.ok hu)
  have hj : Token.Joins ts "\n(".toList := by
    intro t ht
    obtain rfl := Option.some.inj ht
    exact .inr (.inr ⟨rfl, fun c hc => (Option.some.inj hc).symm⟩)
  obtain ⟨vs, hv, hsu⟩ := tokenize_join (by decide) hs rfl hj
  obtain rfl := Except.ok.inj (hu.symm.trans hv)
  exact ⟨hj, hu, hsu⟩

end ParenLex
