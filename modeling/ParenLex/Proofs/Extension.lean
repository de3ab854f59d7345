import ParenLex.Proofs.RoundTrip
import ParenLex.Proofs.Undecodable

/-!
# Texts that go on

What comes after a text changes none of its pieces but the last, and that one only where it is a run
that reaches the end of the text: the same run then goes on.

* `first?_append`, `first?_grows`: the first piece of a text and of one that goes on.
* `munch_append`: pieces with text after them are the pieces of every text that goes on.
* `settled_append`: so are the tokens, up to the last one.
-/

namespace ParenLex

open Piece (texts layout)

namespace Token

/-- A paren is complete in itself. -/
def isParen (t : Token) : Bool := t.kind = .openParen || t.kind = .closeParen

/-- The last token, if it is one that may go on. -/
def pending? (ts : List Token) : Option Token := ts.getLast?.filter (!·.isParen)

/-- **The tokens that no more text can change**: all but the pending one. -/
def settled (ts : List Token) : List Token :=
  match pending? ts with
  | some _ => ts.dropLast
  | none => ts

variable {ts : List Token} {t : Token}

theorem pending?_of_paren (h : t.isParen = true) : pending? (ts ++ [t]) = none := by
  simp [pending?, h]

theorem pending?_of_not_paren (h : t.isParen = false) : pending? (ts ++ [t]) = some t := by
  simp [pending?, Option.filter, h]

theorem settled_of_paren (h : t.isParen = true) : settled (ts ++ [t]) = ts ++ [t] := by
  rw [settled, pending?_of_paren h]

theorem settled_of_not_paren (h : t.isParen = false) : settled (ts ++ [t]) = ts := by
  rw [settled, pending?_of_not_paren h]
  exact List.dropLast_concat

end Token

namespace Piece

variable {d : Nat} {cs : List Char} {p : Piece}

theorem texts_append (ps qs : List Piece) : texts (ps ++ qs) = texts ps ++ texts qs :=
  List.flatMap_append

theorem layout_append (start : Place) (ps qs : List Piece) :
    layout start (ps ++ qs) = layout start ps ++ layout (start.advance (texts ps)) qs := by
  induction ps generalizing start with
  | nil => rfl
  | cons p ps ih =>
    rw [List.cons_append, layout, layout, ih, texts_cons, Place.advance_append, List.cons_append]

/-! ### The first piece -/

/-- A run at the head of a text is the beginning of the run when the text goes on. -/
theorem takeWhile_prefix_append (q : Char → Bool) (cs ds : List Char) :
    cs.takeWhile q <+: (cs ++ ds).takeWhile q := by
  rw [List.takeWhile_append]
  split
  · exact (cs.takeWhile_prefix q).trans (List.prefix_append _ _)
  · exact List.prefix_refl _

/-- **A first piece stays what it is if what comes after it ends it.** -/
theorem first?_append_of_ends (h : first? d cs = some p) (ds : List Char)
    (he : ∀ c, (cs.drop p.text.length ++ ds).head? = some c → p.Ends c) :
    first? d (cs ++ ds) = some p := by
  obtain ⟨hw, hi⟩ := whole_first? h
  obtain ⟨rest, rfl⟩ := (text_first? h).2
  rw [List.drop_left] at he
  rw [List.append_assoc]
  exact first?_of_shaped hw.shaped hi he

/-- So it does where text comes after it already. -/
theorem first?_append (h : first? d cs = some p) (hr : cs.drop p.text.length ≠ [])
    (ds : List Char) : first? d (cs ++ ds) = some p := by
  refine first?_append_of_ends h ds fun c hc => ?_
  rw [List.head?_append_of_ne_nil _ hr] at hc
  exact (whole_first? h).1.ends c hc

/-- Where no piece begins a text, none begins it when it goes on. -/
theorem first?_append_none {c : Char} (h : first? d (c :: cs) = none) (ds : List Char) :
    first? d (c :: cs ++ ds) = none := by
  rw [List.cons_append]
  simp only [first?] at h ⊢
  split_ifs at h ⊢ <;> rfl

/-- **A first piece only grows**, and a paren not even that. -/
theorem first?_grows (h : first? d cs = some p) (ds : List Char) :
    ∃ q, first? d (cs ++ ds) = some q ∧ p.text <+: q.text ∧
      (p.kind = .openParen ∨ p.kind = .closeParen → q = p) := by
  have hgrow : ∀ (k : List Char → Kind) (r : Char → Bool),
      (run k r cs).text <+: (run k r (cs ++ ds)).text := fun k r => takeWhile_prefix_append r cs ds
  cases cs with
  | nil => cases h
  | cons c cs =>
    rw [List.cons_append] at hgrow ⊢
    simp only [first?] at h
    split_ifs at h with h1 h2 h3 h4 h5 h6 <;> obtain rfl := Option.some.inj h
    · subst h1
      exact ⟨_, first?_openParen d _, List.prefix_refl _, fun _ => rfl⟩
    · exact ⟨_, first?_blank d _ h2, hgrow _ _, by simp [blanks, run]⟩
    · subst h3
      exact ⟨_, first?_comment d _, hgrow _ _, by simp [comment, run]⟩
    · subst h5
      exact ⟨_, first?_closeParen _ (Nat.pos_of_ne_zero h4), List.prefix_refl _, fun _ => rfl⟩
    · obtain ⟨hk1, hk2, -, -⟩ : (word (c :: cs)).IsWord := isWord_of_ofWord rfl
      exact ⟨_, first?_word _ (Nat.pos_of_ne_zero h4) h6, hgrow _ _, by simp [hk1, hk2]⟩

end Piece

/-! ### All pieces -/

namespace Munch

/-- The munch with pieces before it. -/
def prepend (ps : List Piece) (m : Munch) : Munch := { m with pieces := ps ++ m.pieces }

variable {d : Nat} {cs : List Char} {ps qs : List Piece} {p : Piece}

theorem prepend_cons (p : Piece) (ps : List Piece) (m : Munch) :
    (m.prepend ps).prepend [p] = m.prepend (p :: ps) := rfl

theorem munch_eq_prepend (h : Piece.first? d cs = some p) :
    munch d cs = (munch (p.depthAfter d) (cs.drop p.text.length)).prepend [p] := munch_of_some h

/-- What pieces begin with is the first piece of their text. -/
theorem first?_of_pieces (h : (munch d cs).pieces = p :: ps) : Piece.first? d cs = some p := by
  cases hf : Piece.first? d cs with
  | none =>
    rw [munch_of_none hf] at h
    cases h
  | some q =>
    rw [munch_of_some hf] at h
    rw [(List.cons.inj h).1]

/-- **Pieces with text after them stay what they are.** The munch of a text that goes on begins with
them, and takes up at the text after them, at the depth `e` that they leave. -/
theorem munch_append (h : (munch d cs).pieces = ps ++ qs)
    (hne : texts qs ++ (munch d cs).rest ≠ []) :
    ∃ e rest, rest = texts qs ++ (munch d cs).rest ∧ munch d cs = (munch e rest).prepend ps ∧
      ∀ ds, munch d (cs ++ ds) = (munch e (rest ++ ds)).prepend ps := by
  induction ps generalizing d cs with
  | nil =>
    have hx := texts_munch d cs
    rw [h, List.nil_append] at hx
    exact ⟨d, cs, hx.symm, rfl, fun ds => rfl⟩
  | cons p ps ih =>
    have hf := first?_of_pieces h
    have hm := munch_eq_prepend hf
    have hx := texts_munch (p.depthAfter d) (cs.drop p.text.length)
    have hrest : (munch d cs).rest = (munch (p.depthAfter d) (cs.drop p.text.length)).rest := by
      rw [hm]
      rfl
    have hps : (munch (p.depthAfter d) (cs.drop p.text.length)).pieces = ps ++ qs := by
      rw [hm] at h
      exact (List.cons.inj h).2
    rw [hrest] at hne ⊢
    obtain ⟨e, rest, h1, h2, h3⟩ := ih hps hne
    refine ⟨e, rest, h1, by rw [hm, h2, prepend_cons], fun ds => ?_⟩
    -- text comes after the first piece, so that one stays
    have hdrop : cs.drop p.text.length ≠ [] := by
      rw [← hx, hps, Piece.texts_append, List.append_assoc]
      exact List.append_ne_nil_of_right_ne_nil _ hne
    have hlen : p.text.length ≤ cs.length := (Piece.text_first? hf).2.length_le
    rw [munch_eq_prepend (Piece.first?_append hf hdrop ds), List.drop_append_of_le_length hlen,
      h3 ds, prepend_cons]

/-- **A character in the way stays in the way.** -/
theorem munch_append_rest (h : (munch d cs).rest ≠ []) (ds : List Char) :
    munch d (cs ++ ds) = { munch d cs with rest := (munch d cs).rest ++ ds } := by
  have hall : (munch d cs).pieces = (munch d cs).pieces ++ [] := (List.append_nil _).symm
  obtain ⟨e, rest, hr, h1, h2⟩ := munch_append hall h
  rw [Piece.texts_nil, List.nil_append] at hr
  have hnil : (munch e rest).pieces = [] := by
    have := congrArg pieces h1
    simpa [prepend] using this.symm
  obtain ⟨c, cs', hc⟩ := List.exists_cons_of_ne_nil h
  rw [hc] at hr
  subst hr
  have hf : Piece.first? e (c :: cs') = none := by
    cases hf : Piece.first? e (c :: cs') with
    | none => rfl
    | some p =>
      rw [munch_of_some hf] at hnil
      cases hnil
  have hdepth : (munch d cs).depth = e := by
    rw [h1, munch_of_none hf]
    rfl
  rw [h2 ds, munch_of_none (Piece.first?_append_none hf ds)]
  simp [prepend, hdepth, hc]

/-- **Only the last piece may grow** where the text has ended with no character in the way. -/
theorem munch_append_last (h : (munch d cs).pieces = ps ++ [p]) (hr : (munch d cs).rest = [])
    (ds : List Char) : ∃ q qs, (munch d (cs ++ ds)).pieces = ps ++ q :: qs ∧
      p.text <+: q.text ∧ (p.kind = .openParen ∨ p.kind = .closeParen → q = p) := by
  have hp : p.text ≠ [] := (plain_munch d cs p (by rw [h]; simp)).text
  have ht : texts [p] ++ (munch d cs).rest = p.text := by simp [hr]
  obtain ⟨e, rest, hrest, h1, h2⟩ := munch_append h (by rw [ht]; exact hp)
  rw [ht] at hrest
  subst hrest
  -- the last piece is the first of its own text
  have hlast : (munch e p.text).pieces = [p] := by
    have hps := congrArg pieces h1
    rw [h] at hps
    exact (List.append_cancel_left hps).symm
  have hf : Piece.first? e p.text = some p := first?_of_pieces hlast
  obtain ⟨q, hq, hpre, hparen⟩ := Piece.first?_grows hf ds
  refine ⟨q, (munch (q.depthAfter e) ((p.text ++ ds).drop q.text.length)).pieces, ?_, hpre, hparen⟩
  rw [h2 ds, munch_eq_prepend hq]
  rfl

end Munch

/-- **Tokens of pieces of which the last has grown.** The settled ones are the same, and one that was
pending has become longer. -/
theorem Piece.settled_layout {p q : Piece} (hpre : p.text <+: q.text)
    (hparen : p.kind = .openParen ∨ p.kind = .closeParen → q = p) (start : Place)
    (ps qs : List Piece) (after : List Token) :
    ∃ us, layout start (ps ++ q :: qs) ++ after =
        Token.settled (layout start (ps ++ [p])) ++ us ∧
      ∀ x, Token.pending? (layout start (ps ++ [p])) = some x → ∃ y vs more, us = y :: vs ∧
        y.position = x.position ∧ y.text = x.text ++ more := by
  have hlast : layout start (ps ++ [p]) = layout start ps ++
      [⟨p.kind, String.ofList p.text, (start.advance (texts ps)).position⟩] := layout_append _ _ _
  rw [hlast, layout_append, layout, List.append_assoc]
  generalize layout ((start.advance (texts ps)).advance q.text) qs = vs
  by_cases hk : p.kind = .openParen ∨ p.kind = .closeParen
  · obtain rfl := hparen hk
    have hb : Token.isParen ⟨q.kind, String.ofList q.text,
        (start.advance (texts ps)).position⟩ = true := by simpa [Token.isParen] using hk
    rw [Token.settled_of_paren hb, Token.pending?_of_paren hb]
    exact ⟨vs ++ after, by simp, fun x hx => by cases hx⟩
  · have hb : Token.isParen ⟨p.kind, String.ofList p.text,
        (start.advance (texts ps)).position⟩ = false := by simpa [Token.isParen] using hk
    rw [Token.settled_of_not_paren hb, Token.pending?_of_not_paren hb]
    refine ⟨_, rfl, fun x hx => ?_⟩
    obtain rfl := Option.some.inj hx
    obtain ⟨more, hmore⟩ := hpre
    exact ⟨_, _, String.ofList more, rfl, rfl, by rw [← String.ofList_append, hmore]⟩

/-- **More text never rewrites the tokens that have been decided.** A text that comes to an error
other than its own end makes the same tokens however it goes on. Any other keeps all its tokens
before the one at the end but for a last one that is no paren, and that one only grows: a token that
begins with its text takes its place. -/
theorem settled_append {s u : String} (h : s.utf8ByteSize + u.utf8ByteSize ≤ counterMax) :
    ∃ ts t, tokenize? s = .ok (ts ++ [t]) ∧ (t.kind = .eof ∨ t.kind = .error) ∧
      (t.kind = .error ∧ t.text ≠ "Unexpected EOF" → tokenize? (s ++ u) = .ok (ts ++ [t])) ∧
      (¬ (t.kind = .error ∧ t.text ≠ "Unexpected EOF") →
        ∃ us, tokenize? (s ++ u) = .ok (Token.settled ts ++ us) ∧
          ∀ x, Token.pending? ts = some x → ∃ y vs more, us = y :: vs ∧
            y.position = x.position ∧ y.text = x.text ++ more) := by
  obtain ⟨hs, hts⟩ := @tokenize_eq s (by omega)
  obtain ⟨hsu, htsu⟩ := @tokenize_eq (s ++ u) (by rw [String.utf8ByteSize_append]; exact h)
  rw [String.toList_append] at htsu
  rw [hs, hts, hsu, htsu]
  by_cases hr : (munch 0 s.toList).rest = []
  · -- the text has ended, at the top level or with parens open
    obtain ⟨-, t, -, hk, hend⟩ := Munch.tokens_of_end .start hr
    refine ⟨_, t, congrArg Except.ok (hend ⟨[], none, false⟩ rfl), hk.imp_right And.left,
      fun he => ?_, fun _ => ?_⟩
    · rcases hk with hk | hk
      · cases hk.symm.trans he.1
      · exact absurd hk.2 he.2
    · rcases List.eq_nil_or_concat (munch 0 s.toList).pieces with hp | ⟨ps, p, hp⟩
      · rw [hp]
        exact ⟨_, rfl, fun x hx => by cases hx⟩
      · rw [List.concat_eq_append] at hp
        obtain ⟨q, qs, hq, hpre, hparen⟩ := Munch.munch_append_last hp hr u.toList
        obtain ⟨us, hus, hx⟩ := Piece.settled_layout hpre hparen .start ps qs
          ((munch 0 (s.toList ++ u.toList)).closing ⟨[], none, false⟩
            (Place.start.advance (texts (ps ++ q :: qs))) false)
        rw [Munch.tokens, hq, hp, hus]
        exact ⟨us, rfl, hx⟩
  · obtain ⟨o, hn, hall⟩ := Munch.tokens_of_rest .start hr
    have hm : o.message ≠ "Unexpected EOF" := fun hm => hn (LexError.message_eq_endOfInput.1 hm)
    refine ⟨_, .error o.message _, congrArg Except.ok (hall ⟨[], none, false⟩), .inr rfl,
      fun _ => ?_, fun h => absurd ⟨rfl, hm⟩ h⟩
    -- the character in the way is the same, and so is the depth that it stands at
    obtain ⟨c, rest, hc⟩ := List.exists_cons_of_ne_nil hr
    rw [← hall ⟨[], none, false⟩, Munch.munch_append_rest hr]
    simp only [Munch.tokens, Munch.closing, Munch.obstacle?, hc, List.cons_append]

/-- A number that goes on as a decimal, in a list whose paren is still open. -/
theorem settled_append_decimal : "(1".utf8ByteSize + ".5)".utf8ByteSize ≤ counterMax ∧
    ∃ us, tokenize? ("(1" ++ ".5)") = .ok (⟨.openParen, "(", ⟨1, 0, 0⟩⟩ :: us) ∧
      ∃ y vs more, us = y :: vs ∧ y.position = ⟨1, 1, 1⟩ ∧ y.text = "1" ++ more := by
  have h : "(1".utf8ByteSize + ".5)".utf8ByteSize ≤ counterMax := by decide
  obtain ⟨ts, t, ht, -, -, hgo⟩ := settled_append h
  have hk : tokenize "(1" = [⟨.openParen, "(", ⟨1, 0, 0⟩⟩, ⟨.integer, "1", ⟨1, 1, 1⟩⟩] ++
      [⟨.error, "Unexpected EOF", ⟨1, 2, 2⟩⟩] := by decide +kernel
  have hk : tokenize? "(1" = _ := (tokenize_eq (by decide)).1.trans (congrArg Except.ok hk)
  obtain ⟨rfl, he⟩ := List.append_inj' (Except.ok.inj (ht.symm.trans hk)) rfl
  obtain rfl := (List.cons.inj he).1
  obtain ⟨us, hus, hx⟩ := hgo fun hn => hn.2 rfl
  exact ⟨h, us, hus, hx ⟨.integer, "1", ⟨1, 1, 1⟩⟩ rfl⟩

end ParenLex
