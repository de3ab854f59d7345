import ParenLex.Proofs.Ends
import ParenLex.Proofs.Coverage

/-!
# Failed reads

A read that fails ends the input, as an end of the script does, and neither how the bytes before it
are cut into reads nor the failure itself shows in the tokens. It shows in the result, where the
scan has asked for a byte that was not there.

* `error_mem_tokens`: the error among the tokens is the obstacle that the text comes to.
* `outcome_cases`: which scans ask for more bytes than there are, and what comes of it.
* `read_failure`: the tokens and the results of runs over feeds that deliver the same bytes.
-/

namespace ParenLex

open Piece (texts layout)

namespace Munch

variable {m : Munch} {e e' : Feed.Ending} {start : Place} {b : Bool} {t : Token}

/-- Of what stands after the characters, the bytes alone matter for the tokens. -/
theorem tokens_congr (m : Munch) (start : Place) (b : Bool) (h : e.bytes = e'.bytes) :
    m.tokens e start b = m.tokens e' start b := by
  simp only [tokens, closing, obstacle?, h]

/-- **The error among the tokens is the obstacle that the text comes to.** -/
theorem error_mem_tokens (hp : ∀ p ∈ m.pieces, p.Plain) :
    t ∈ m.tokens e start b ∧ t.kind = .error ↔ ∃ o, m.obstacle? e = some o ∧
      t = .error o.message (start.advance (texts m.pieces)).position := by
  rw [tokens, List.mem_append, closing]
  constructor
  · rintro ⟨ht | ht, hk⟩
    · have := (Token.text_layout hp t ht).2.1
      simp [Token.isError, hk] at this
    · split at ht
      · obtain rfl := List.mem_singleton.1 ht
        cases hk
      · next o ho =>
        refine ⟨o, ho, ?_⟩
        rcases List.mem_cons.1 ht with rfl | ht
        · rfl
        · split at ht
          · obtain rfl := List.mem_singleton.1 ht
            cases hk
          · cases ht
  · rintro ⟨o, ho, rfl⟩
    rw [ho]
    exact ⟨.inr List.mem_cons_self, rfl⟩

end Munch

/-- The error stands where the bytes left are the first of a character, and fewer than it takes. -/
def Token.CutShort (t : Token) (bytes : List UInt8) : Prop :=
  ∃ lead bs, t.text = (LexError.bytes (lead :: bs)).message ∧
    bytes.drop t.position.offset = lead :: bs ∧ bs.length + 1 < Utf8.width lead

namespace Scan

variable {f g : Feed}

/-- **A scan of a feed with a failed read** asks for it at the end of its text, where the characters
run out of bytes, and has it for its result. Otherwise it asks for bytes alone. -/
theorem outcome_cases {e : ReadError} (settings : Settings) (h : f.delivered.length ≤ counterMax)
    (he : f.failure? = some e) :
    ((munch 0 f.chars).rest = [] ∧ f.RunsOut) ∧
      f.Beyond (Scan.ofFeed f settings).final.lexer.reader.feed ∧
        (Scan.ofFeed f settings).outcome = .error (.read e) ∨
    ¬ ((munch 0 f.chars).rest = [] ∧ f.RunsOut) ∧
      f.Within (Scan.ofFeed f settings).final.lexer.reader.feed ∧
        (Scan.ofFeed f settings).outcome = .ok () := by
  by_cases hr : (munch 0 f.chars).rest = []
  · obtain ⟨h1, h2⟩ := ends_of_end settings h hr
    by_cases ho : f.RunsOut
    · exact .inl ⟨⟨hr, ho⟩, (h1 ho).1, (h1 ho).2 e he⟩
    · exact .inr ⟨fun hn => ho hn.2, h2 ho⟩
  · exact .inr ⟨fun hn => hr hn.1, ends_of_rest settings h hr⟩

theorem beyond_iff {e : ReadError} (settings : Settings) (h : f.delivered.length ≤ counterMax)
    (he : f.failure? = some e) :
    f.Beyond (Scan.ofFeed f settings).final.lexer.reader.feed ↔
      (munch 0 f.chars).rest = [] ∧ f.RunsOut := by
  rcases outcome_cases settings h he with ⟨hr, hb, -⟩ | ⟨hr, hw, -⟩
  · exact iff_of_true hb hr
  · exact iff_of_false (Feed.not_beyond_of_within he hw) hr

end Scan

namespace Munch

variable {f : Feed} {o : LexError} {t : Token}

/-- The bytes from the end of the pieces on are those of what is left of the text, and then bytes
that begin with no character. -/
theorem drop_delivered (f : Feed) : ∃ bs, (∀ c rest, bs ≠ String.utf8EncodeChar c ++ rest) ∧
    f.delivered = Utf8.encode f.chars ++ bs ∧
      f.delivered.drop (Place.start.advance (texts (munch 0 f.chars).pieces)).position.offset =
        Utf8.encode (munch 0 f.chars).rest ++ bs := by
  obtain ⟨bs, hd, hb⟩ := f.delivered_eq_append
  refine ⟨bs, hb, hd, ?_⟩
  have ho : (Place.start.advance (texts (munch 0 f.chars).pieces)).position.offset =
      (Utf8.encode (texts (munch 0 f.chars).pieces)).length := by
    rw [Utf8.length_encode]
    exact Nat.zero_add _
  have hx := congrArg Utf8.encode (texts_munch 0 f.chars)
  rw [Utf8.encode_append] at hx
  rw [ho, hd, ← hx, List.append_assoc, List.drop_left]

/-- The text ends with no obstacle where it runs out of bytes. -/
theorem runsOut_of_exhausted (h : (munch 0 f.chars).obstacle? f.ending = none) :
    (munch 0 f.chars).rest = [] ∧ f.RunsOut := by
  obtain ⟨hr, hb, -⟩ := obstacle?_eq_none.1 h
  obtain ⟨bs, -, hd, -⟩ := drop_delivered f
  obtain ⟨after, hd', -, ha⟩ := f.delivered_eq
  refine ⟨hr, ?_, by rw [hb]; rfl⟩
  rw [hd', ha hb, hb]

/-- So it does where its end is the obstacle. -/
theorem runsOut_of_endOfInput (h : (munch 0 f.chars).obstacle? f.ending = some .endOfInput) :
    (munch 0 f.chars).rest = [] ∧ f.RunsOut := by
  obtain ⟨after, hd', -, ha⟩ := f.delivered_eq
  unfold obstacle? at h
  split at h
  · split at h <;> cases h
  · next hr =>
    split at h
    · cases h
    · next hb =>
      have hb : f.ending.bytes = [] := by simpa using hb
      refine ⟨hr, ?_, by rw [hb]; rfl⟩
      rw [hd', ha hb, hb]

/-- And where the obstacle is a character cut short. -/
theorem runsOut_of_cutShort (h : (munch 0 f.chars).obstacle? f.ending = some o)
    (ht : (Token.error o.message
      (Place.start.advance (texts (munch 0 f.chars).pieces)).position).CutShort f.delivered) :
    (munch 0 f.chars).rest = [] ∧ f.RunsOut := by
  obtain ⟨lead, bs, hm, hd, hw⟩ := ht
  obtain ⟨after, hb, hda, hdrop⟩ := drop_delivered f
  have hd : Utf8.encode (munch 0 f.chars).rest ++ after = lead :: bs := hdrop.symm.trans hd
  unfold obstacle? at h
  split at h
  · next c rest hr =>
    -- a character is as long as its lead byte announces
    obtain ⟨lead', cs, hc, hw', -⟩ := Utf8.encodeChar_eq c
    rw [hr, Utf8.encode_cons, hc, List.cons_append, List.cons_append] at hd
    obtain ⟨rfl, rfl⟩ := List.cons.inj hd
    simp only [List.length_append] at hw
    omega
  · next hr =>
    rw [hr, Utf8.encode_nil, List.nil_append] at hd
    subst hd
    obtain ⟨-, hend⟩ := Feed.chars_of_append hda hb
    refine ⟨hr, ?_⟩
    split at h
    · -- the message shows the bytes, so they are those that are left
      obtain rfl := Option.some.inj h
      have he := LexError.bytes.inj (LexError.message_injective hm)
      refine ⟨by rw [he]; exact hda, ?_⟩
      rw [he]
      simpa [Utf8.isOpen] using hw
    · next hne =>
      rw [hend] at hne
      simp [Utf8.broken] at hne

/-- **The three ways to run out of bytes at the end of the text**: without an obstacle, with parens
open, and in the middle of a character. -/
theorem runsOut_iff : (munch 0 f.chars).rest = [] ∧ f.RunsOut ↔
    (munch 0 f.chars).obstacle? f.ending = none ∨
      ∃ o, (munch 0 f.chars).obstacle? f.ending = some o ∧ (o = .endOfInput ∨
        (Token.error o.message
          (Place.start.advance (texts (munch 0 f.chars).pieces)).position).CutShort
            f.delivered) := by
  constructor
  · rintro ⟨hr, hd, ho⟩
    obtain ⟨after, -, hda, hdrop⟩ := drop_delivered f
    rw [hda, hr, Utf8.encode_nil, List.nil_append] at hdrop
    obtain rfl : after = f.ending.bytes := List.append_cancel_left (hda.symm.trans hd)
    rw [obstacle?, hr]
    dsimp only
    rcases hb : f.ending.bytes with _ | ⟨lead, bs⟩
    · by_cases h0 : (munch 0 f.chars).depth = 0
      · exact .inl (by simp [h0])
      · exact .inr ⟨.endOfInput, by simp [h0], .inl rfl⟩
    · rw [hb] at ho hdrop hda
      refine .inr ⟨.bytes (lead :: bs), by simp, .inr ⟨lead, bs, rfl, ?_, ?_⟩⟩
      · rw [hda]; exact hdrop
      · simpa [Utf8.isOpen] using ho
  · rintro (h | ⟨o, h, rfl | ht⟩)
    · exact runsOut_of_exhausted h
    · exact runsOut_of_endOfInput h
    · exact runsOut_of_cutShort h ht

/-- They show in the tokens and in the halt. -/
theorem runsOut_iff_tokens (f : Feed) (b : Bool) : (munch 0 f.chars).rest = [] ∧ f.RunsOut ↔
    (munch 0 f.chars).halt f.ending = .exhausted ∨
      ∃ t ∈ (munch 0 f.chars).tokens f.ending .start b, t.kind = .error ∧
        (t.text = "Unexpected EOF" ∨ t.CutShort f.delivered) := by
  have hp : ∀ p ∈ (munch 0 f.chars).pieces, p.Plain := plain_munch 0 f.chars
  have hh : (munch 0 f.chars).halt f.ending = .exhausted ↔
      (munch 0 f.chars).obstacle? f.ending = none := by
    rw [halt]
    split <;> simp_all
  rw [runsOut_iff, hh]
  refine or_congr_right ⟨?_, ?_⟩
  · rintro ⟨o, ho, hcut⟩
    obtain ⟨hm, hk⟩ := (error_mem_tokens (b := b) hp).2 ⟨o, ho, rfl⟩
    exact ⟨_, hm, hk, hcut.imp_left LexError.message_eq_endOfInput.2⟩
  · rintro ⟨t, hm, hk, hcut⟩
    obtain ⟨o, ho, rfl⟩ := (error_mem_tokens hp).1 ⟨hm, hk⟩
    exact ⟨o, ho, hcut.imp_left LexError.message_eq_endOfInput.1⟩

/-- Feeds that deliver the same bytes make the same tokens. -/
theorem tokens_of_delivered {g : Feed} (h : f.delivered = g.delivered) (b : Bool) :
    (munch 0 f.chars).tokens f.ending .start b = (munch 0 g.chars).tokens g.ending .start b := by
  obtain ⟨hc, hb⟩ := Feed.chars_congr h
  rw [hc]
  exact tokens_congr _ _ _ hb

end Munch

/-- **A failed read changes only the result, and cutting into reads changes nothing.** Feeds that
deliver the same bytes make the same tokens, whatever comes after them. At an end of input the
result is good. At a failed read it is that failure where the scan has asked for a byte beyond those
delivered, which it does when the input is exhausted, ends with parens open, or ends in the middle of
a character; and otherwise nothing is seen of the failure. -/
theorem read_failure {σ : Type} {sink : Sink σ} {f g : Feed} {s t : Settings}
    (h : f.delivered.length ≤ counterMax) (hd : f.delivered = g.delivered)
    (hf : f.stops = false) (hg : g.stops = false) (hst : s.eofAfterError = t.eofAfterError)
    (ha : sink.Accepting) (st : σ) :
    let r := (Scan.ofFeed f s).run sink st
    let final := (Scan.ofFeed f s).final
    let last := final.lexer.reader.feed
    (r.offered = ((Scan.ofFeed g t).run sink st).offered ∧
      r.sink = ((Scan.ofFeed g t).run sink st).sink) ∧
    final.over? = some r.result ∧ (f.failure? = none → r.result = .ok ()) ∧
    ∀ e, f.failure? = some e →
      (r.result = .error (.read e) ↔ f.Beyond last) ∧
      (f.Beyond last ↔ r.halt? = some .exhausted ∨ ∃ tok ∈ r.offered, tok.kind = .error ∧
        (tok.text = "Unexpected EOF" ∨ tok.CutShort f.delivered)) ∧
      (¬ f.Beyond last → r.result = .ok () ∧ f.Within last) := by
  intro r final last
  obtain ⟨h1, h2, h3, h4⟩ := Scan.run_accepting s st h hf ha
  obtain ⟨h5, h6, -, -⟩ := Scan.run_accepting t st (hd ▸ h) hg ha
  have hts := Munch.tokens_of_delivered hd t.eofAfterError
  rw [hst, hts] at h1 h2
  have hr : r.result = (Scan.ofFeed f s).outcome := h4
  refine ⟨⟨h1.trans h5.symm, h2.trans h6.symm⟩, ?_, fun hn => ?_, fun e he => ⟨?_, ?_, ?_⟩⟩
  · rw [hr]
    exact Scan.over_final _
  · rw [hr]
    exact Scan.outcome_ofFeed s h hn
  · rcases Scan.outcome_cases s h he with ⟨-, hb, ho⟩ | ⟨-, hw, ho⟩
    · exact iff_of_true (hr.trans ho) hb
    · refine iff_of_false (fun hx => ?_) (Feed.not_beyond_of_within he hw)
      rw [hr, ho] at hx
      cases hx
  · have hhalt : r.halt? = some .exhausted ↔ (munch 0 f.chars).halt f.ending = .exhausted := by
      rw [show r.halt? = _ from h3, Option.some.injEq]
    rw [hhalt, show r.offered = _ from h1, ← hts, ← Munch.runsOut_iff_tokens]
    exact Scan.beyond_iff s h he
  · intro hn
    rcases Scan.outcome_cases s h he with ⟨-, hb, -⟩ | ⟨-, hw, ho⟩
    · exact absurd hb hn
    · exact ⟨hr.trans ho, hw⟩

/-- A character cut short by a failed read, and by the end of a feed that comes in other reads. -/
theorem read_failure_cutShort :
    let e : ReadError := ⟨.connectionReset, "reset"⟩
    let f := Feed.ofItems [.bytes [0x28, 0xE2], .bytes [0x82], .failure e, .bytes [0x29]]
    let g := Feed.ofItems [.bytes [0x28], .failure ⟨.interrupted, ""⟩, .bytes [0xE2, 0x82]]
    let r := (Scan.ofFeed f .default).run Sink.keeping #[]
    (f.delivered.length ≤ counterMax ∧ f.delivered = g.delivered ∧ f.stops = false ∧
      g.stops = false ∧ f.failure? = some e) ∧
    r.offered = ((Scan.ofFeed g .default).run Sink.keeping #[]).offered ∧
      r.result = .error (.read e) ∧
      f.Beyond (Scan.ofFeed f .default).final.lexer.reader.feed := by
  intro e f g r
  have h : f.delivered.length ≤ counterMax := by decide
  have he : f.failure? = some e := rfl
  obtain ⟨⟨h1, -⟩, -, -, h2⟩ := read_failure (g := g) (s := .default) (t := .default) h rfl rfl rfl
    rfl Sink.accepting_keeping #[]
  obtain ⟨h3, h4, -⟩ := h2 e he
  have ho : r.offered = [⟨.openParen, "(", ⟨1, 0, 0⟩⟩,
      ⟨.error, "Unexpected sequence: E282", ⟨1, 1, 1⟩⟩] := by decide +kernel
  have hb := h4.2 (.inr ⟨⟨.error, "Unexpected sequence: E282", ⟨1, 1, 1⟩⟩,
    by rw [show ((Scan.ofFeed f .default).run Sink.keeping #[]).offered = _ from ho]; simp, rfl,
    .inr ⟨0xE2, [0x82], by decide, rfl, by decide⟩⟩)
  exact ⟨⟨h, rfl, rfl, rfl, he⟩, h1, h3.2 hb, hb⟩

end ParenLex
