import ParenLex.Proofs.Failure

/-!
# Bytes that make no character

Bytes that begin with no character end the input where they stand. A text before them makes the
tokens that it makes alone, up to the end; there they are the error, in place of the end of the
input.

* `tokens_of_rest`, `tokens_of_end`: the tokens of a text, by whether a character of it is in the
  way.
* `undecodable`: the tokens of a text and of bytes after it that begin with no character.
-/

namespace ParenLex

open Piece (texts layout)

namespace Munch

variable {m : Munch}

/-- **A character in the way is the obstacle**, whatever stands after the text. -/
theorem tokens_of_rest (start : Place) (h : m.rest ≠ []) : ∃ o : LexError, o ≠ .endOfInput ∧
    ∀ e, m.tokens e start false = layout start m.pieces ++
      [.error o.message (start.advance (texts m.pieces)).position] := by
  obtain ⟨c, rest, hr⟩ := List.exists_cons_of_ne_nil h
  refine ⟨if m.depth = 0 then .bytes (String.utf8EncodeChar c) else .character c, ?_, fun e => ?_⟩
  · split <;> simp
  · simp only [tokens, closing, obstacle?, hr]
    rfl

/-- **Where the text ends, it makes way for what stands after it**: bytes, if there are any, or the
end of the input, which is an obstacle where parens are open. -/
theorem tokens_of_end (start : Place) (h : m.rest = []) :
    (∀ e : Feed.Ending, e.bytes ≠ [] → m.tokens e start false = layout start m.pieces ++
      [.error (LexError.bytes e.bytes).message (start.advance (texts m.pieces)).position]) ∧
    ∃ t : Token, t.position = (start.advance (texts m.pieces)).position ∧
      (t.kind = .eof ∨ t.kind = .error ∧ t.text = "Unexpected EOF") ∧
      ∀ e : Feed.Ending, e.bytes = [] → m.tokens e start false = layout start m.pieces ++ [t] := by
  refine ⟨fun e hb => ?_, ?_⟩
  · simp only [tokens, closing, obstacle?, h, if_pos hb]
    rfl
  · by_cases hd : m.depth = 0
    · refine ⟨.eof (start.advance (texts m.pieces)).position, rfl, .inl rfl, fun e hb => ?_⟩
      simp [tokens, closing, obstacle?, h, hb, hd]
    · refine ⟨.error LexError.endOfInput.message (start.advance (texts m.pieces)).position, rfl,
        .inr ⟨rfl, rfl⟩, fun e hb => ?_⟩
      simp [tokens, closing, obstacle?, h, hb, hd]

end Munch

/-- **Bytes that make no character are one error at the end of the text before them**, and alter
nothing that precedes them. A text that comes to an obstacle of its own makes its tokens as it does
alone; any other has the error in place of its last token. The error shows the first byte and the
continuation bytes that directly follow it, as far as it announces them; no byte from it on is in
another token, and what comes after these bytes and the one that ended them is not even read. -/
theorem undecodable {σ : Type} {sink : Sink σ} {text : String} {bs : List UInt8} {f : Feed}
    (h : text.utf8ByteSize + bs.length ≤ counterMax) (hne : bs ≠ [])
    (hb : ∀ c rest, bs ≠ String.utf8EncodeChar c ++ rest)
    (hd : f.delivered = Utf8.encode text.toList ++ bs) (hf : f.failure? = none)
    (hs : f.stops = false) (ha : sink.Accepting) (st : σ) :
    let r := (Scan.ofFeed f .default).run sink st
    let seq := Utf8.broken bs
    r.result = .ok () ∧ r.sink = r.offered.foldl sink.push st ∧
    (∃ ts t, tokenize? text = .ok (ts ++ [t]) ∧ (t.kind = .eof ∨ t.kind = .error) ∧
      (t.kind = .error → t.text ≠ "Unexpected EOF" → r.offered = ts ++ [t]) ∧
      ((t.kind = .error → t.text = "Unexpected EOF") → r.offered = ts ++ [.error
        ("Unexpected sequence: " ++ String.ofList (Text.Hex.ofBytes seq)) t.position])) ∧
    Token.bytes r.offered <+: Utf8.encode text.toList ∧
    bs.drop (seq.length + 1) <:+ (Scan.ofFeed f .default).final.lexer.reader.feed.delivered := by
  intro r seq
  have hlen : f.delivered.length ≤ counterMax := by
    rw [hd, List.length_append, Utf8.length_encode, Utf8.byteSize_toList]
    exact h
  obtain ⟨hc, he⟩ := Feed.chars_of_append hd hb
  have hseq : f.ending.bytes ≠ [] := by
    obtain ⟨lead, rest, rfl⟩ := List.exists_cons_of_ne_nil hne
    simp [he, Utf8.broken]
  obtain ⟨h1, h2, -, h3⟩ := Scan.run_accepting .default st hlen hs ha
  rw [hc] at h1 h2
  have h1 : r.offered = (munch 0 text.toList).tokens f.ending .start false := h1
  obtain ⟨ht, htok⟩ := @tokenize_eq text (by omega)
  refine ⟨h3.trans (Scan.outcome_ofFeed .default hlen hf), ?_, ?_, ?_, ?_⟩
  · rw [h1]
    exact h2
  · rw [ht, htok, h1]
    by_cases hr : (munch 0 text.toList).rest = []
    · -- the text ends, and the bytes take the place of its end
      obtain ⟨hbytes, t, hp, hk, hend⟩ := Munch.tokens_of_end .start hr
      refine ⟨_, t, congrArg Except.ok (hend ⟨[], none, false⟩ rfl), ?_, ?_, fun _ => ?_⟩
      · exact hk.imp_right And.left
      · intro hke hn
        rcases hk with hk | ⟨-, hk⟩
        · cases hk.symm.trans hke
        · exact absurd hk hn
      · rw [hbytes f.ending hseq, he, hp]
        rfl
    · obtain ⟨o, hn, hall⟩ := Munch.tokens_of_rest .start hr
      have hm : o.message ≠ "Unexpected EOF" := fun hm => hn (LexError.message_eq_endOfInput.1 hm)
      refine ⟨_, .error o.message _, congrArg Except.ok (hall ⟨[], none, false⟩), .inr rfl,
        fun _ _ => hall f.ending, fun h => absurd (h rfl) hm⟩
  · rw [h1, Munch.bytes_tokens (plain_munch 0 text.toList)]
    have hx := congrArg Utf8.encode (texts_munch 0 text.toList)
    rw [Utf8.encode_append] at hx
    exact ⟨_, hx⟩
  · obtain ⟨k, hk, -, hfeed, -⟩ := Scan.stop_ofFeed .default hlen
    rw [hfeed]
    exact Reader.drop_suffix_feed hk hd hc

/-- A lead byte without the byte that it announces, after a text with a paren open. -/
theorem undecodable_lead :
    let f := Feed.ofItems [.bytes [0x28, 0x61, 0xC3], .bytes [0x29, 0x0A]]
    let r := (Scan.ofFeed f .default).run Sink.keeping #[]
    (f.delivered = Utf8.encode "(a".toList ++ [0xC3, 0x29, 0x0A] ∧
      ∀ c rest, [0xC3, 0x29, 0x0A] ≠ String.utf8EncodeChar c ++ rest) ∧
    r.result = .ok () ∧
    tokenize? "(a" = .ok [⟨.openParen, "(", ⟨1, 0, 0⟩⟩, ⟨.identifier, "a", ⟨1, 1, 1⟩⟩,
      ⟨.error, "Unexpected EOF", ⟨1, 2, 2⟩⟩] ∧
    r.offered = [⟨.openParen, "(", ⟨1, 0, 0⟩⟩, ⟨.identifier, "a", ⟨1, 1, 1⟩⟩,
      ⟨.error, "Unexpected sequence: C3", ⟨1, 2, 2⟩⟩] ∧
    [0x0A] <:+ (Scan.ofFeed f .default).final.lexer.reader.feed.delivered := by
  intro f r
  have hb : ∀ c rest, [0xC3, 0x29, 0x0A] ≠ String.utf8EncodeChar c ++ rest := by
    intro c rest h
    obtain ⟨lead, cs, hc, hw, hcont⟩ := Utf8.encodeChar_eq c
    rw [hc] at h
    obtain ⟨rfl, ht⟩ := List.cons.inj h
    obtain ⟨b, rfl⟩ := List.length_eq_one_iff.1 (Nat.succ.inj hw).symm
    obtain ⟨rfl, -⟩ := List.cons.inj ht
    exact absurd (hcont _ List.mem_cons_self) (by decide)
  have hd : f.delivered = Utf8.encode "(a".toList ++ [0xC3, 0x29, 0x0A] := by decide
  have hl : "(a".utf8ByteSize + [0xC3, 0x29, 0x0A].length ≤ counterMax := by decide
  obtain ⟨h1, -, ⟨ts, t, ht, -, -, h2⟩, -, h3⟩ :=
    undecodable hl (by simp) hb hd rfl rfl Sink.accepting_keeping #[]
  have hk : tokenize "(a" = [⟨.openParen, "(", ⟨1, 0, 0⟩⟩, ⟨.identifier, "a", ⟨1, 1, 1⟩⟩] ++
      [⟨.error, "Unexpected EOF", ⟨1, 2, 2⟩⟩] := by decide +kernel
  have hk : tokenize? "(a" = _ := (tokenize_eq (by decide)).1.trans (congrArg Except.ok hk)
  obtain ⟨rfl, he⟩ := List.append_inj' (Except.ok.inj (ht.symm.trans hk)) rfl
  obtain rfl := (List.cons.inj he).1
  exact ⟨⟨hd, hb⟩, h1, hk, h2 fun _ => rfl, h3⟩

end ParenLex
