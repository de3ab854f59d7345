import ParenLex.Proofs.Shape
import ParenLex.Proofs.Tokens

/-!
# Printing and lexing

A list of pieces is well formed when each has the shape of its kind, no two that would run together
stand side by side, and the parens are in order. The well-formed lists are those that lexing yields,
and lexing their texts gives them back.

* `munch_texts`: the pieces of the texts of a well-formed list are that list.
* `wellFormed_munch`: the pieces of a text are well formed up to the parens left open.
* `round_trip`: both, for the tokens of a text.
-/

namespace ParenLex

open Piece (texts layout)

namespace Piece

/-- **The second piece may follow the first**: the two do not run together. -/
structure Before (p q : Piece) : Prop where
  whitespace : p.kind = .whitespace → q.kind ≠ .whitespace
  word : p.IsWord → ¬ q.IsWord
  comment : p.kind = .comment → q.kind = .whitespace ∧ q.text.head? = some '\n'

/-- A piece that has to stand inside of parens. -/
def Inner (p : Piece) : Prop := p.IsWord ∨ p.kind = .closeParen

/-- How many pieces are open parens. -/
def opens (ps : List Piece) : Nat := ps.countP (·.kind = .openParen)

/-- How many pieces are close parens. -/
def closes (ps : List Piece) : Nat := ps.countP (·.kind = .closeParen)

/-- **Lists of pieces that may be printed and lexed again.** -/
structure WellFormed (ps : List Piece) : Prop where
  shaped : ∀ p ∈ ps, p.Shaped
  chain : ps.IsChain Before
  nested : ∀ before p after, ps = before ++ p :: after → p.Inner → closes before < opens before
  balanced : opens ps = closes ps

variable {p q : Piece} {ps : List Piece} {d : Nat} {c : Char} {cs : List Char}

/-- The head of a piece that may follow ends the one before. -/
theorem ends_of_before (h : p.Before q) (hq : q.Shaped) (hc : q.text.head? = some c) :
    p.Ends c := by
  refine ⟨?_, ?_, ?_⟩
  · intro hp
    rcases head_of_shaped hq hc with rfl | rfl | rfl | ⟨hk, -⟩ | ⟨-, hw⟩
    · decide
    · decide
    · decide
    · exact absurd hk (h.whitespace hp)
    · by_contra hb
      rw [isWordChar_of_isBlank (by simpa using hb)] at hw
      cases hw
  · intro hp
    have hn := (h.comment hp).2
    rw [hc] at hn
    exact Option.some.inj hn
  · intro hp
    rcases head_of_shaped hq hc with rfl | rfl | rfl | ⟨-, hb⟩ | ⟨hk, -⟩
    · decide
    · decide
    · decide
    · exact isWordChar_of_isBlank hb
    · exact absurd hk (h.word hp)

theorem run_append {k : List Char → Kind} {r : Char → Bool} {rest : List Char}
    (h : ∀ c ∈ cs, r c = true) (hr : ∀ c, rest.head? = some c → r c = false) :
    run k r (cs ++ rest) = ⟨k cs, cs⟩ := by
  have ht : (cs ++ rest).takeWhile r = cs := by
    rw [List.takeWhile_append_of_pos h]
    cases rest with
    | nil => simp
    | cons c rest => simp [hr c rfl]
  rw [run, ht]

/-- **A piece of its kind's shape is the first of a text that goes on with a character that ends
it.** -/
theorem first?_of_shaped {rest : List Char} (h : p.Shaped) (hd : p.Inner → 0 < d)
    (hr : ∀ c, rest.head? = some c → p.Ends c) : first? d (p.text ++ rest) = some p := by
  rcases p.cases_kind with hk | hk | hk | hk | hk
  · have ht := h.openParen hk
    rw [ht, List.singleton_append, first?_openParen, ← ht, ← hk]
  · have ht := h.closeParen hk
    rw [ht, List.singleton_append, first?_closeParen _ (hd (.inr hk)), ← ht, ← hk]
  · obtain ⟨hne, hb⟩ := h.whitespace hk
    have hrun : blanks (p.text ++ rest) = p := by
      rw [blanks, run_append hb fun c hc => (hr c hc).whitespace hk, ← hk]
    obtain ⟨c, cs, ht⟩ := List.exists_cons_of_ne_nil hne
    rw [ht] at hb hrun ⊢
    exact (first?_blank d _ (hb c List.mem_cons_self)).trans (congrArg some hrun)
  · obtain ⟨cs, ht, hn⟩ := h.comment hk
    have hb : ∀ c ∈ p.text, decide (c ≠ '\n') = true := by
      intro c hc
      rw [ht] at hc
      rcases List.mem_cons.1 hc with rfl | hc
      · decide
      · simpa using ne_of_mem_of_not_mem hc hn
    have hrun : comment (p.text ++ rest) = p := by
      rw [comment, run_append hb fun c hc => by simp [(hr c hc).comment hk], ← hk]
    rw [ht] at hrun ⊢
    exact (first?_comment d _).trans (congrArg some hrun)
  · obtain ⟨hne, hw, hkind⟩ := h.word hk
    have hrun : word (p.text ++ rest) = p := by
      rw [word, run_append hw fun c hc => (hr c hc).word hk, ← hkind]
    obtain ⟨c, cs, ht⟩ := List.exists_cons_of_ne_nil hne
    rw [ht] at hw hrun ⊢
    exact (first?_word _ (hd (.inl hk)) (hw c List.mem_cons_self)).trans (congrArg some hrun)

/-! ### Depths -/

/-- Inner pieces stand where parens are open, from depth `d` on. -/
def Nested (d : Nat) : List Piece → Prop
  | [] => True
  | p :: ps => (p.Inner → 0 < d) ∧ Nested (p.depthAfter d) ps

/-- The parens of a piece move the depth, unless a close paren stands where none is open. -/
theorem depthAfter_add (h : p.Inner → 0 < d) :
    p.depthAfter d + closes [p] = d + opens [p] := by
  unfold depthAfter
  split
  · next hk => simp [closes, opens, hk]
  · next hk =>
    have := h (.inr hk)
    simp [closes, opens, hk]; omega
  · next h1 h2 =>
    have h1 : p.kind ≠ .openParen := h1
    have h2 : p.kind ≠ .closeParen := h2
    simp [closes, opens, h1, h2]

theorem opens_cons (p : Piece) (ps : List Piece) : opens (p :: ps) = opens [p] + opens ps := by
  simp [opens, List.countP_cons, Nat.add_comm]

theorem closes_cons (p : Piece) (ps : List Piece) : closes (p :: ps) = closes [p] + closes ps := by
  simp [closes, List.countP_cons, Nat.add_comm]

/-- **Whether inner pieces stand well is a matter of the parens before them.** -/
theorem nested_iff : Nested d ps ↔
    ∀ before p after, ps = before ++ p :: after → p.Inner → closes before < d + opens before := by
  induction ps generalizing d with
  | nil => simp [Nested]
  | cons q ps ih =>
    rw [Nested, ih]
    constructor
    · rintro ⟨h1, h2⟩ before p after he hp
      cases before with
      | nil =>
        obtain ⟨rfl, -⟩ := List.cons.inj he
        simpa [closes, opens] using h1 hp
      | cons b before =>
        -- a paren that comes first counts for all that come after it
        obtain ⟨hq, he⟩ := List.cons.inj he
        have := h2 before p after he hp
        have := depthAfter_add h1
        rw [← hq, opens_cons, closes_cons]
        omega
    · intro h
      have h1 : q.Inner → 0 < d := fun hq => by simpa [closes, opens] using h [] q ps rfl hq
      refine ⟨h1, fun before p after he hp => ?_⟩
      have hlt := h (q :: before) p after (by rw [he]; rfl) hp
      have := depthAfter_add h1
      rw [opens_cons, closes_cons] at hlt
      omega

/-! ### Lexing what is printed -/

/-- What is printed after a piece begins with a character that ends it. -/
theorem ends_texts (hs : ∀ q ∈ ps, q.Shaped) (h : (p :: ps).IsChain Before)
    (hc : (texts ps).head? = some c) : p.Ends c := by
  cases ps with
  | nil => simp at hc
  | cons q ps =>
    have hq := hs q List.mem_cons_self
    rw [texts_cons, List.head?_append_of_ne_nil _ (text_ne_nil hq)] at hc
    exact ends_of_before (List.isChain_cons_cons.1 h).1 hq hc

/-- **The pieces of what is printed are those that were printed.** -/
theorem munch_texts (hs : ∀ p ∈ ps, p.Shaped) (hc : ps.IsChain Before) (hn : Nested d ps) :
    ∃ e, munch d (texts ps) = ⟨ps, e, []⟩ ∧ e + closes ps = d + opens ps := by
  induction ps generalizing d with
  | nil => exact ⟨d, munch_of_none rfl, rfl⟩
  | cons p ps ih =>
    obtain ⟨hp, hs⟩ := List.forall_mem_cons.1 hs
    obtain ⟨e, he, hd⟩ := ih hs hc.tail hn.2
    have hf := first?_of_shaped hp hn.1 fun c => ends_texts hs hc
    refine ⟨e, ?_, ?_⟩
    · rw [texts_cons, munch_of_some hf, List.drop_left, he]
    · have := depthAfter_add hn.1
      rw [opens_cons, closes_cons]
      omega

/-! ### Printing what is lexed -/

/-- **The first piece of a text is whole**, and stands where it may. -/
theorem whole_first? (h : first? d cs = some p) : p.Whole cs ∧ (p.Inner → 0 < d) := by
  cases cs with
  | nil => cases h
  | cons c cs =>
    simp only [first?] at h
    split_ifs at h with h1 h2 h3 h4 h5 h6 <;> obtain rfl := Option.some.inj h
    · exact ⟨whole_openParen _, by simp [Inner, IsWord]⟩
    · exact ⟨whole_blanks h2 cs, by simp [Inner, IsWord, blanks, run]⟩
    · subst h3
      exact ⟨whole_comment cs, by simp [Inner, IsWord, comment, run]⟩
    · exact ⟨whole_closeParen _, fun _ => by omega⟩
    · exact ⟨whole_word h6 cs, fun _ => by omega⟩

/-- The first piece after another does not run together with it. -/
theorem before_first? {e : Nat} (h : first? d cs = some p)
    (hq : first? e (cs.drop p.text.length) = some q) : p.Before q := by
  have he := (whole_first? h).1.ends
  have hs := (whole_first? hq).1.shaped
  obtain ⟨hne, hpre⟩ := text_first? hq
  obtain ⟨c, ds, ht⟩ := List.exists_cons_of_ne_nil hne
  obtain ⟨rest, hr⟩ := hpre
  have hc := he c (by rw [← hr, ht]; rfl)
  have hm : c ∈ q.text := by rw [ht]; exact List.mem_cons_self
  refine ⟨fun hp hk => ?_, fun hp hk => ?_, fun hp => ?_⟩
  · have := (hs.whitespace hk).2 c hm
    rw [hc.whitespace hp] at this; cases this
  · have := (hs.word hk).2.1 c hm
    rw [hc.word hp] at this; cases this
  · obtain rfl := hc.comment hp
    rw [← hr, ht, List.cons_append, first?_blank e _ (by decide)] at hq
    obtain rfl := Option.some.inj hq
    exact ⟨rfl, by rw [ht]; rfl⟩

/-- **The pieces of a text are well formed**, up to the parens left open. -/
theorem wellFormed_munch (d : Nat) (cs : List Char) :
    (∀ p ∈ (munch d cs).pieces, p.Shaped) ∧ (munch d cs).pieces.IsChain Before ∧
      Nested d (munch d cs).pieces := by
  fun_induction munch d cs with
  | case1 d cs h => exact ⟨by simp, .nil, trivial⟩
  | case2 d cs p h m ih =>
    obtain ⟨hs, hc, hn⟩ := ih
    obtain ⟨hp, hd⟩ := whole_first? h
    refine ⟨List.forall_mem_cons.2 ⟨hp.shaped, hs⟩,
      List.isChain_cons.2 ⟨fun q hq => ?_, hc⟩, hd, hn⟩
    have hm : first? (p.depthAfter d) (cs.drop p.text.length) = some q := by
      cases hf : first? (p.depthAfter d) (cs.drop p.text.length) with
      | none => simp [m, munch_of_none hf] at hq
      | some r => simpa [m, munch_of_some hf] using hq
    exact before_first? h hm

/-- The kinds and texts of pieces with the offsets where the texts begin, from an offset on. -/
def spread (n : Nat) : List Piece → List (Kind × String × Nat)
  | [] => []
  | p :: ps => (p.kind, String.ofList p.text, n) :: spread (n + byteSize p.text) ps

end Piece

namespace Token

/-- The kind and text of a token. -/
def piece (t : Token) : Piece := ⟨t.kind, t.text.toList⟩

/-- A token without its line and column. -/
def flat (t : Token) : Kind × String × Nat := (t.kind, t.text, t.position.offset)

end Token

namespace Piece

theorem map_piece_layout (start : Place) (ps : List Piece) :
    (layout start ps).map Token.piece = ps := by
  induction ps generalizing start with
  | nil => rfl
  | cons p ps ih => simp [layout, Token.piece, ih]

theorem map_flat_layout (start : Place) (ps : List Piece) :
    (layout start ps).map Token.flat = spread start.offset ps := by
  induction ps generalizing start with
  | nil => rfl
  | cons p ps ih =>
    rw [layout, List.map_cons, ih]
    rfl

/-- **Lexing undoes printing.** A well-formed list comes back from its texts, each piece at the
offset where its text begins and one end of input after them; and where a text is lexed up to the
end of input, the tokens before that are a well-formed list whose texts make up the text. -/
theorem round_trip {text : String} (h : text.utf8ByteSize ≤ counterMax) :
    (∀ ps, WellFormed ps → texts ps = text.toList → (tokenize? text).map (·.map Token.flat) =
      .ok (spread 0 ps ++ [(.eof, "", text.utf8ByteSize)])) ∧
    ∀ ts t, tokenize? text = .ok (ts ++ [t]) → t.kind = .eof →
      WellFormed (ts.map Token.piece) ∧ texts (ts.map Token.piece) = text.toList := by
  obtain ⟨h1, h2⟩ := tokenize_eq h
  refine ⟨fun ps hw ht => ?_, fun ts t he hk => ?_⟩
  · obtain ⟨e, hm, hd⟩ := munch_texts (d := 0) hw.shaped hw.chain
      (nested_iff.2 (by simpa using hw.nested))
    have hz : e = 0 := by have := hw.balanced; omega
    rw [ht] at hm
    have ho : (⟨ps, 0, []⟩ : Munch).obstacle? ⟨[], none, false⟩ = none := rfl
    rw [h1, h2, hm, hz, Munch.tokens, Munch.closing, ho]
    show Except.ok (List.map Token.flat (layout .start ps ++ [_])) = _
    rw [List.map_append, map_flat_layout, ht, ← Utf8.byteSize_toList]
    simp [Token.flat, Token.eof, Place.position, Place.start]
  · have ht : (munch 0 text.toList).tokens ⟨[], none, false⟩ .start false = ts ++ [t] := by
      rw [h1, h2] at he
      exact Except.ok.inj he
    rw [Munch.tokens, Munch.closing] at ht
    cases ho : (munch 0 text.toList).obstacle? ⟨[], none, false⟩ with
    | some o =>
      -- the last token would be an error
      rw [ho] at ht
      obtain ⟨-, hlast⟩ := List.append_inj' ht rfl
      obtain rfl := (List.cons.inj hlast).1
      cases hk
    | none =>
      rw [ho] at ht
      obtain ⟨rfl, -⟩ := List.append_inj' ht rfl
      obtain ⟨hr, -, hd⟩ := Munch.obstacle?_eq_none.1 ho
      obtain ⟨hs, hc, hn⟩ := wellFormed_munch 0 text.toList
      -- the pieces are printed and lexed once more, for the sum of their parens
      obtain ⟨e, hm, hb⟩ := munch_texts hs hc hn
      have hx := texts_munch 0 text.toList
      rw [hr, List.append_nil] at hx
      rw [hx] at hm
      have he0 : e = 0 := by rw [← hd, hm]
      rw [map_piece_layout]
      exact ⟨⟨hs, hc, by simpa using nested_iff.1 hn, by omega⟩, hx⟩

/-- A list in parens with a comment in it. -/
theorem round_trip_comment :
    let ps : List Piece := [⟨.openParen, ['(']⟩, ⟨.integer, ['7']⟩, ⟨.comment, [';']⟩,
      ⟨.whitespace, ['\n']⟩, ⟨.closeParen, [')']⟩]
    WellFormed ps ∧ (tokenize? "(7;\n)").map (·.map Token.flat) =
      .ok [(.openParen, "(", 0), (.integer, "7", 1), (.comment, ";", 2), (.whitespace, "\n", 3),
        (.closeParen, ")", 4), (.eof, "", 5)] ∧
      ∃ ts t, tokenize? "(7;\n)" = .ok (ts ++ [t]) ∧ WellFormed (ts.map Token.piece) ∧
        texts (ts.map Token.piece) = "(7;\n)".toList := by
  intro ps
  obtain ⟨h1, h2⟩ := @round_trip "(7;\n)" (by decide)
  have hw : WellFormed ps := by
    have hk : Kind.ofWord ['7'] = .integer := by decide
    have hb : isBlank '\n' = true := by decide
    have hd : isWordChar '7' = true := by decide
    refine ⟨?_, ?_, ?_, rfl⟩
    · simp only [ps, List.forall_mem_cons]
      refine ⟨?_, ?_, ?_, ?_, ?_, by simp⟩ <;> constructor <;> simp [IsWord, hk, hb, hd]
    · simp only [ps, List.isChain_cons_cons]
      refine ⟨?_, ?_, ?_, ?_, .singleton _⟩ <;> constructor <;> simp [IsWord]
    · simpa using (nested_iff (d := 0)).1 (by simp [ps, Nested, depthAfter, Inner, IsWord])
  have he := h1 ps hw rfl
  refine ⟨hw, he, ?_⟩
  cases ht : tokenize? "(7;\n)" with
  | error e => rw [ht] at he; cases he
  | ok us =>
    rw [ht] at he
    obtain ⟨ts, vs, rfl, -, hv⟩ := List.map_eq_append_iff.1 (Except.ok.inj he)
    obtain ⟨t, rfl, ht'⟩ := List.map_eq_singleton_iff.1 hv
    obtain ⟨h3, h4⟩ := h2 ts t ht (Prod.mk.inj ht').1
    exact ⟨ts, t, rfl, h3, h4⟩

end Piece

end ParenLex
