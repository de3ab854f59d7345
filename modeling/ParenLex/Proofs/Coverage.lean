import ParenLex.Proofs.Message
import ParenLex.Proofs.Tokens

/-!
# Tokens cover the input

Every token starts where the texts before it end, and the texts are the bytes delivered, in their
order and without a gap. Errors have a message for a text, which stands for no bytes.

* `covers_tokens`: the tokens of a feed cover the bytes that it delivers.
* `coverage`: so do those that any run offers, up to where it ended.
-/

namespace ParenLex

open Piece (texts layout)

namespace Token

/-- The tokens whose texts are from the input. -/
def covering (ts : List Token) : List Token := ts.filter (!·.isError)

/-- The number of bytes in their texts. -/
def size (ts : List Token) : Nat := ((covering ts).map (·.text.utf8ByteSize)).sum

/-- The bytes of their texts, one after another. -/
def bytes (ts : List Token) : List UInt8 := (covering ts).flatMap fun t => Utf8.encode t.text.toList

/-- **The tokens are made of the bytes**, from their beginning on. -/
structure Cover (ts : List Token) (bs : List UInt8) : Prop where
  offset : ∀ before t after, ts = before ++ t :: after → t.position.offset = size before
  text : ∀ t ∈ ts, t.kind ≠ .eof → t.text ≠ ""
  bytes : bytes ts <+: bs

variable {t : Token} {ts us : List Token} {bs : List UInt8} {n : Nat}

theorem size_append (ts us : List Token) : size (ts ++ us) = size ts + size us := by
  simp [size, covering]

theorem bytes_append (ts us : List Token) : bytes (ts ++ us) = bytes ts ++ bytes us := by
  simp [bytes, covering]

/-- What tokens cover, the first of them cover. -/
theorem Cover.of_prefix (h : Cover ts bs) (hp : us <+: ts) : Cover us bs := by
  obtain ⟨rest, rfl⟩ := hp
  refine ⟨fun before t after he => ?_, fun t ht => ?_, ?_⟩
  · exact h.offset before t (after ++ rest) (by rw [he]; simp)
  · exact h.text t (List.mem_append_left _ ht)
  · refine List.IsPrefix.trans ?_ h.bytes
    rw [bytes_append]
    exact List.prefix_append _ _

/-! ### Tokens laid out one after another -/

/-- Each token starts where the texts before it end, if the first starts at `n`. -/
def Contiguous (n : Nat) : List Token → Prop
  | [] => True
  | t :: ts => t.position.offset = n ∧ Contiguous (n + size [t]) ts

theorem offset_of_contiguous {before after : List Token} (h : Contiguous n ts)
    (he : ts = before ++ t :: after) : t.position.offset = n + size before := by
  induction before generalizing n ts with
  | nil =>
    subst he
    exact h.1
  | cons b before ih =>
    subst he
    rw [ih h.2 rfl, Nat.add_assoc, ← size_append]
    rfl

variable {ps : List Piece} {start : Place}

theorem contiguous_layout (start : Place) (hp : ∀ p ∈ ps, p.Plain)
    (h : Contiguous (start.offset + byteSize (texts ps)) us) :
    Contiguous start.offset (layout start ps ++ us) := by
  induction ps generalizing start with
  | nil => exact h
  | cons p ps ih =>
    obtain ⟨hp, hps⟩ := List.forall_mem_cons.1 hp
    have he : p.kind ≠ .error := hp.error
    refine ⟨rfl, ?_⟩
    have hs : size [⟨p.kind, String.ofList p.text, start.position⟩] = byteSize p.text := by
      simp [size, covering, isError, he, ← Utf8.byteSize_toList]
    rw [hs]
    exact ih (start.advance p.text) hps (by simpa [Nat.add_assoc] using h)

theorem bytes_layout (hp : ∀ p ∈ ps, p.Plain) (start : Place) :
    bytes (layout start ps) = Utf8.encode (texts ps) := by
  induction ps generalizing start with
  | nil => rfl
  | cons p ps ih =>
    obtain ⟨hp, hps⟩ := List.forall_mem_cons.1 hp
    have he : p.kind ≠ .error := hp.error
    rw [layout, ← List.singleton_append, bytes_append, ih hps]
    simp [bytes, covering, isError, he, Utf8.encode]

theorem text_layout (hp : ∀ p ∈ ps, p.Plain) :
    ∀ t ∈ layout start ps, t.text ≠ "" ∧ t.isError = false ∧ t.isEof = false := by
  induction ps generalizing start with
  | nil => simp [layout]
  | cons p ps ih =>
    obtain ⟨⟨h1, h2, h3⟩, hps⟩ := List.forall_mem_cons.1 hp
    refine List.forall_mem_cons.2 ⟨⟨fun ht => h1 ?_, ?_, ?_⟩, ih hps⟩
    · simpa using congrArg String.toList ht
    · simpa [isError] using h2
    · simpa [isEof] using h3

end Token

/-! ### The tokens of a feed -/

namespace Munch

variable {m : Munch} {e : Feed.Ending} {place : Place} {b : Bool} {t : Token}

theorem closing_spec (ht : t ∈ m.closing e place b) :
    t.position = place.position ∧ (t.isError = true ∨ t.isEof = true) ∧
      (t.kind ≠ .eof → t.text ≠ "") := by
  unfold closing at ht
  split at ht
  · obtain rfl := List.mem_singleton.1 ht
    exact ⟨rfl, .inr rfl, fun h => absurd rfl h⟩
  · next o ho =>
    rcases List.mem_cons.1 ht with rfl | ht
    · exact ⟨rfl, .inl rfl, fun _ => o.message_ne⟩
    · split at ht
      · obtain rfl := List.mem_singleton.1 ht
        exact ⟨rfl, .inr rfl, fun h => absurd rfl h⟩
      · cases ht

theorem closing_ne_nil : m.closing e place b ≠ [] := by
  unfold closing
  split <;> simp

/-- No bytes are left for what comes after the pieces. -/
theorem contiguous_closing (m : Munch) (e : Feed.Ending) (place : Place) (b : Bool) :
    Token.Contiguous place.offset (m.closing e place b) ∧
    Token.bytes (m.closing e place b) = [] := by
  unfold closing
  split
  · exact ⟨⟨rfl, trivial⟩, rfl⟩
  · -- an error stands for no bytes, so the end after it stands where it does
    cases b
    · exact ⟨⟨rfl, trivial⟩, rfl⟩
    · exact ⟨⟨rfl, rfl, trivial⟩, rfl⟩

/-- The tokens cover the texts of the pieces. -/
theorem bytes_tokens (hp : ∀ p ∈ m.pieces, p.Plain) (e : Feed.Ending) (start : Place) (b : Bool) :
    Token.bytes (m.tokens e start b) = Utf8.encode (texts m.pieces) := by
  obtain ⟨-, hn⟩ := m.contiguous_closing e (start.advance (texts m.pieces)) b
  rw [tokens, Token.bytes_append, hn, List.append_nil]
  exact Token.bytes_layout hp start

/-- **The tokens of a feed cover its bytes** up to the end of its pieces, which is where the tokens
after them stand. -/
theorem covers_tokens (f : Feed) (b : Bool) :
    let m := munch 0 f.chars
    let ts := m.tokens f.ending .start b
    Token.Cover ts f.delivered ∧
      (∀ t ∈ ts, t.isError = true ∨ t.isEof = true → t.position.offset = (Token.bytes ts).length) ∧
        (∃ t, ts.getLast? = some t ∧ (t.isError = true ∨ t.isEof = true)) ∧
          (m.halt f.ending = .exhausted → Token.bytes ts = f.delivered) := by
  intro m ts
  have hp : ∀ p ∈ m.pieces, p.Plain := plain_munch 0 f.chars
  have hx : texts m.pieces ++ m.rest = f.chars := texts_munch 0 f.chars
  obtain ⟨hc, -⟩ := m.contiguous_closing f.ending (Place.start.advance (texts m.pieces)) b
  have hb : Token.bytes ts = Utf8.encode (texts m.pieces) := bytes_tokens hp f.ending .start b
  obtain ⟨after, hd, h1, h2⟩ := f.delivered_eq
  rw [← hx, Utf8.encode_append, List.append_assoc] at hd
  refine ⟨⟨fun before t after he => ?_, fun t ht hk => ?_, ?_⟩, fun t ht hk => ?_, ?_, fun hh => ?_⟩
  · have := Token.offset_of_contiguous (Token.contiguous_layout .start hp hc) he
    simpa [Place.start] using this
  · rcases List.mem_append.1 ht with ht | ht
    · exact (Token.text_layout hp t ht).1
    · exact (closing_spec ht).2.2 hk
  · rw [hb, hd]
    exact List.prefix_append _ _
  · rcases List.mem_append.1 ht with ht | ht
    · obtain ⟨-, h3, h4⟩ := Token.text_layout hp t ht
      simp [h3, h4] at hk
    · rw [(closing_spec ht).1, hb, Utf8.length_encode]
      exact Nat.zero_add _
  · have hne : m.closing f.ending (Place.start.advance (texts m.pieces)) b ≠ [] := closing_ne_nil
    have ht := List.getLast?_eq_some_getLast hne
    refine ⟨_, ?_, (closing_spec (List.mem_of_getLast? ht)).2.1⟩
    rw [show ts = layout .start m.pieces ++ _ from rfl, List.getLast?_append, ht]
    rfl
  · have ho : m.obstacle? f.ending = none := by
      unfold halt at hh
      split at hh
      · assumption
      · cases hh
    obtain ⟨hr, he, -⟩ := obstacle?_eq_none.1 ho
    rw [hb, hd, hr, h2 he]
    simp

end Munch

/-- **Nothing is lost and nothing comes twice.** Whatever the feed, the settings and the sink, the
tokens that a run offers cover the bytes delivered; where it was not told to stop and had no token
refused, the covered bytes end where its last token stands, and where the input was exhausted, they
are all there are. -/
theorem coverage {σ : Type} {f : Feed} (h : f.delivered.length ≤ counterMax) (settings : Settings)
    (sink : Sink σ) (st : σ) :
    let r := (Scan.ofFeed f settings).run sink st
    Token.Cover r.offered f.delivered ∧
      (∀ k, r.halt? = some k → k ≠ .cancelled →
        (∃ t, r.offered.getLast? = some t ∧ (t.isError = true ∨ t.isEof = true)) ∧
          ∀ t ∈ r.offered, t.isError = true ∨ t.isEof = true →
            t.position.offset = (Token.bytes r.offered).length) ∧
      (r.halt? = some .exhausted → Token.bytes r.offered = f.delivered) := by
  intro r
  have hs := Scan.sends_ofFeed settings h
  obtain ⟨h1, h2, h3, h4⟩ := Munch.covers_tokens f settings.eofAfterError
  have ho := Scan.offered_prefix sink st (Scan.ofFeed f settings)
  rw [hs.offers] at ho
  refine ⟨h1.of_prefix ho, fun k hk hc => ?_, fun hk => ?_⟩
  · obtain ⟨he, -⟩ := Scan.offered_of_halt hk hc
    rw [hs.offers] at he
    rw [show r.offered = _ from he]
    exact ⟨h3, h2⟩
  · obtain ⟨he, hl⟩ := Scan.offered_of_halt hk (by decide)
    rw [hs.offers] at he
    rw [hs.halt, Option.some.injEq] at hl
    rw [show r.offered = _ from he]
    exact h4 hl

/-- A character that comes in two reads, after a read that had to be tried again. -/
theorem coverage_chunks :
    let f := Feed.ofItems [.bytes [0x28, 0x29], .failure ⟨.interrupted, ""⟩, .bytes [0x3B, 0xC3],
      .bytes [0xA9]]
    let r := (Scan.ofFeed f .default).run Sink.keeping #[]
    f.delivered.length ≤ counterMax ∧ Token.Cover r.offered f.delivered ∧
      r.halt? = some .exhausted ∧ Token.bytes r.offered = f.delivered := by
  intro f r
  have hf : f.delivered.length ≤ counterMax := by decide
  have hr : r.halt? = some .exhausted := by decide +kernel
  obtain ⟨h1, -, h2⟩ := coverage hf .default Sink.keeping #[]
  exact ⟨hf, h1, hr, h2 hr⟩

end ParenLex
