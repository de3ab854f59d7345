import ParenLex.Proofs.Requests
import ParenLex.Proofs.View

/-!
# What a lexer takes from its feed

A step moves the reader by handing out characters and taking them back, and by nothing else. So the
reader of a feed has always either fetched characters of it and no more, or met the end, once. Nor
does it look at a character often: most calls hand one out for good.

* `costs_step`, `moves_step`: how a step moves the reader, and how often it asks for a character.
* `drawn_of_moves`: what the reader has fetched after any such moves.
-/

namespace ParenLex

namespace Feed

/-- **Fetching characters leads from one feed to another.** -/
inductive Fetches : Feed → List Char → Feed → Prop
  | refl (f : Feed) : Fetches f [] f
  | char {f g h : Feed} {cs : List Char} {c : Char} :
      Fetches f cs g → g.fetch = (.char c, h) → Fetches f (cs ++ [c]) h

variable {f g : Feed} {cs : List Char}

theorem Fetches.chars (h : Fetches f cs g) : f.chars = cs ++ g.chars := by
  induction h with
  | refl => rfl
  | char _ hc ih => rw [ih, chars_of_char hc, List.append_assoc]; rfl

theorem Fetches.delivered (h : Fetches f cs g) :
    f.delivered = Utf8.encode cs ++ g.delivered := by
  induction h with
  | refl => rfl
  | char _ hc ih => rw [ih, (delivered_of_char hc).1]; simp

theorem Fetches.within (h : Fetches f cs g) : Within f g := by
  induction h with
  | refl => exact .refl _
  | char _ hc ih => exact ih.trans (within_of_char hc)

theorem Fetches.ending (h : Fetches f cs g) : f.ending = g.ending := by
  induction h with
  | refl => rfl
  | char _ hc ih => rw [ih, ending_of_char hc]

theorem Fetches.runsOut (h : Fetches f cs g) : f.RunsOut ↔ g.RunsOut := by
  induction h with
  | refl => exact Iff.rfl
  | char _ hc ih => exact ih.trans (runsOut_of_char hc)

end Feed

namespace Reader

/-- **Moves of a reader**: characters are handed out and taken back. -/
inductive Moves (r : Reader) : Reader → Prop
  | refl : Moves r r
  | next {k : Reader} : Moves r k → Moves r k.next.2
  | backup {k : Reader} : Moves r k → Moves r k.backup

variable {r k m : Reader} {f : Feed}

/-- **Calls of a reader**: the next character is asked for so many times, and the last one taken
back now and then. -/
inductive Calls (r : Reader) : Reader → Nat → Prop
  | refl : Calls r r 0
  | next {k : Reader} {n : Nat} : Calls r k n → Calls r k.next.2 (n + 1)
  | backup {k : Reader} {n : Nat} : Calls r k n → Calls r k.backup n

theorem Calls.trans {a b : Nat} (h1 : r.Calls k a) (h2 : k.Calls m b) : r.Calls m (a + b) := by
  induction h2 with
  | refl => exact h1
  | next _ ih => exact ih.next
  | backup _ ih => exact ih.backup

theorem Calls.moves {n : Nat} (h : r.Calls k n) : r.Moves k := by
  induction h with
  | refl => exact .refl
  | next _ ih => exact ih.next
  | backup _ ih => exact ih.backup

/-- **Calls that cost `n`**: beside `n` of them, each hands out a byte for good. -/
def Costs (r k : Reader) (n : Nat) : Prop := ∃ a, r.Calls k a ∧ a + k.size ≤ r.size + n

variable {a b : Nat}

theorem Costs.refl (r : Reader) : r.Costs r 0 := ⟨0, .refl, by omega⟩

theorem Costs.trans (h1 : r.Costs k a) (h2 : k.Costs m b) : r.Costs m (a + b) := by
  obtain ⟨i, h1, hi⟩ := h1
  obtain ⟨j, h2, hj⟩ := h2
  exact ⟨i + j, h1.trans h2, by omega⟩

theorem Costs.mono (h : r.Costs k a) (hab : a ≤ b) : r.Costs k b := by
  obtain ⟨i, h, hi⟩ := h
  exact ⟨i, h, by omega⟩

theorem Costs.moves (h : r.Costs k a) : r.Moves k := by
  obtain ⟨i, h, -⟩ := h
  exact h.moves

/-- A character handed out costs nothing. -/
theorem costs_of_char {c : Char} (h : r.next = (some c, k)) : r.Costs k 0 := by
  have hs := size_of_next h
  refine ⟨1, ?_, by omega⟩
  rw [show k = r.next.2 by rw [h]]
  exact .next .refl

theorem costs_next (r : Reader) : r.Costs r.next.2 1 :=
  ⟨1, .next .refl, by have := r.size_next; omega⟩

theorem costs_peek (r : Reader) : r.Costs r.peek.2 1 :=
  ⟨1, .backup (.next .refl), by have := r.size_peek_le; omega⟩

theorem costs_takeWhileOnto (p : Char → Bool) (acc : List Char) (r : Reader) :
    r.Costs (takeWhileOnto p acc r).2 1 := by
  fun_induction takeWhileOnto p acc r with
  | case1 acc r c k h hp ih =>
    have hc := (costs_of_char h).trans ih
    exact hc
  | case2 acc r c k h hp =>
    rw [show k = r.next.2 by rw [h]]
    exact r.costs_peek
  | case3 acc r k h =>
    rw [show k = r.next.2 by rw [h]]
    exact r.costs_next

/-- **What the reader of a feed has fetched**: characters, while it has not been at the end, and
after them what it found there. -/
structure DrawnFrom (r : Reader) (f : Feed) : Prop where
  reading : r.leftover = none → r.failure = none ∧ ∃ cs, f.Fetches cs r.feed
  ended : ∀ bs, r.leftover = some bs → r.slot = .empty ∧
    ∃ cs g e, f.Fetches cs g ∧ g.fetch = (.ended bs e, r.feed)

theorem drawn_ofFeed (f : Feed) : (ofFeed f).DrawnFrom f :=
  ⟨fun _ => ⟨rfl, [], .refl f⟩, fun _ h => absurd h (by simp [ofFeed])⟩

theorem drawn_fetch (h : r.DrawnFrom f) : r.fetch.2.DrawnFrom f := by
  unfold fetch
  split
  · next bs hl =>
    obtain ⟨-, he⟩ := h.ended bs hl
    refine ⟨fun hn => ?_, fun bs' hl' => ⟨rfl, ?_⟩⟩
    · exact absurd (hl.symm.trans hn) (by simp)
    · obtain rfl := Option.some.inj (hl.symm.trans hl')
      exact he
  · next hl =>
    obtain ⟨hf, cs, hc⟩ := h.reading hl
    split
    · next c g hg =>
      refine ⟨fun _ => ⟨hf, cs ++ [c], hc.char hg⟩, fun bs hb => ?_⟩
      rw [hl] at hb; cases hb
    · next bs e g hg =>
      refine ⟨fun hn => absurd hn (by simp), fun bs' hb => ⟨rfl, ?_⟩⟩
      obtain rfl := Option.some.inj hb
      exact ⟨cs, r.feed, e, hc, hg⟩

theorem drawn_next (h : r.DrawnFrom f) : r.next.2.DrawnFrom f := by
  unfold next
  split
  · next c hs =>
    -- a character can be taken back only before the end
    refine ⟨h.reading, fun bs hl => ?_⟩
    rw [(h.ended bs hl).1] at hs
    cases hs
  · exact drawn_fetch h

theorem drawn_backup (h : r.DrawnFrom f) : r.backup.DrawnFrom f := by
  unfold backup
  split
  · next c hs =>
    refine ⟨h.reading, fun bs hl => ?_⟩
    rw [(h.ended bs hl).1] at hs
    cases hs
  · exact h

/-- **No moves of a reader change where it draws from.** -/
theorem drawn_of_moves (h : r.DrawnFrom f) (hm : r.Moves k) : k.DrawnFrom f := by
  induction hm with
  | refl => exact h
  | next _ ih => exact drawn_next ih
  | backup _ ih => exact drawn_backup ih

/-- At the end no character is ahead. -/
theorem ahead_of_leftover (h : r.DrawnFrom f) (hl : r.leftover ≠ none) : r.ahead = [] := by
  obtain ⟨bs, hb⟩ := Option.ne_none_iff_exists'.1 hl
  simp [ahead, (h.ended bs hb).1, Slot.ahead, hb]

/-! ### Requests -/

/-- **A reader that has not been at the end has asked for bytes of its feed alone**, and has met no
failure. -/
theorem within_of_reading (h : r.DrawnFrom f) (hl : r.leftover = none) :
    f.Within r.feed ∧ r.failure = none := by
  obtain ⟨hf, cs, hc⟩ := h.reading hl
  exact ⟨hc.within, hf⟩

/-- **A reader that has been at the end has asked for more than there is** if the characters run out
of bytes, and for nothing else otherwise. -/
theorem requests_of_ended (h : r.DrawnFrom f) (hl : r.leftover ≠ none) :
    (f.RunsOut → f.Beyond r.feed) ∧ (¬ f.RunsOut → f.Within r.feed) := by
  obtain ⟨bs, hb⟩ := Option.ne_none_iff_exists'.1 hl
  obtain ⟨-, cs, g, e, hc, hg⟩ := h.ended bs hb
  rw [hc.runsOut, Feed.runsOut_of_ended hg]
  rcases (Feed.ended_cases hg).2.2 with ⟨hw, -, hn⟩ | ⟨hby, -, hr⟩
  · exact ⟨fun hr => absurd hr hn, fun _ => hc.within.trans hw⟩
  · exact ⟨fun _ => hc.within.beyond hby, fun hn => absurd hr hn⟩

/-- **The failure that a reader has met is the answer to one of the requests made so far.** -/
theorem requests_of_drawn (h : r.DrawnFrom f) (he : r.ending = f.ending) :
    ∃ ps, f.Requests ps r.feed ∧ ∀ e, .failed e ∈ ps ↔ r.failure.map (·.error) = some e := by
  cases hl : r.leftover with
  | none =>
    obtain ⟨⟨ps, hp, hb⟩, hf⟩ := within_of_reading h hl
    refine ⟨ps, hp, fun e => ?_⟩
    rw [hf]
    refine iff_of_false (fun hm => ?_) (by simp)
    have := hb _ hm
    cases this
  | some bs =>
    obtain ⟨-, cs, g, e, hc, hg⟩ := h.ended bs hl
    obtain ⟨ps, hp, hb⟩ := hc.within
    obtain ⟨qs, hq, hfail⟩ := Feed.requests_of_ended hg
    -- what stands after the characters holds the failure that the reader has recorded
    have hrec : r.failure.map (·.error) = e := by
      rw [hc.ending, Feed.ending_of_ended hg, Reader.ending, hl] at he
      exact congrArg Feed.Ending.failure he
    refine ⟨ps ++ qs, hp.trans hq, fun x => ?_⟩
    rw [List.mem_append, hfail, hrec]
    refine or_iff_right fun hm => ?_
    have := hb _ hm
    cases this

/-- What comes after the first bytes that make no character, and after the byte that ended them, is
never asked for. -/
theorem drop_suffix_feed {cs : List Char} {bs : List UInt8} (h : r.DrawnFrom f)
    (hd : f.delivered = Utf8.encode cs ++ bs) (hc : f.chars = cs) :
    bs.drop ((Utf8.broken bs).length + 1) <:+ r.feed.delivered := by
  cases hl : r.leftover with
  | none =>
    obtain ⟨-, ds, hf⟩ := h.reading hl
    rw [← hc, hf.chars, Utf8.encode_append, List.append_assoc, hf.delivered] at hd
    rw [List.append_cancel_left hd]
    exact (List.drop_suffix _ _).trans (List.suffix_append _ _)
  | some bs' =>
    obtain ⟨-, ds, g, e, hf, hg⟩ := h.ended bs' hl
    have hds := hf.chars
    rw [Feed.chars_of_ended hg, List.append_nil] at hds
    rw [← hc, hds, hf.delivered] at hd
    obtain ⟨hb, hdrop, -⟩ := Feed.ended_cases hg
    rw [hb] at hdrop
    rw [← List.append_cancel_left hd]
    exact hdrop

end Reader

namespace Lexer

variable {l k : Lexer}

theorem costs_of_peek {c : Option Char} (h : l.peek = (c, k)) : l.reader.Costs k.reader 1 := by
  obtain ⟨-, rfl⟩ := Prod.mk.inj h
  exact l.reader.costs_peek

theorem costs_of_takeWhile {p : Char → Bool} {cs : List Char} (h : l.takeWhile p = (cs, k)) :
    l.reader.Costs k.reader 1 := by
  obtain ⟨-, rfl⟩ := Prod.mk.inj h
  exact Reader.costs_takeWhileOnto p [] l.reader

theorem costs_of_accept {c : Char} {b : Bool} (h : l.accept c = (b, k)) :
    l.reader.Costs k.reader 1 := by
  have hn := l.reader.costs_next
  have hp := l.reader.costs_peek
  unfold Reader.peek at hp
  unfold accept at h
  split at h
  · next d r hr =>
    rw [hr] at hn hp
    split at h
    · obtain ⟨-, rfl⟩ := Prod.mk.inj h
      exact hn
    · obtain ⟨-, rfl⟩ := Prod.mk.inj h
      exact hp
  · next r hr =>
    rw [hr] at hn
    obtain ⟨-, rfl⟩ := Prod.mk.inj h
    exact hn

theorem costs_unexpected (l : Lexer) : l.reader.Costs l.unexpected.2.reader 1 := by
  unfold unexpected
  split
  · next c k hp => exact costs_of_peek hp
  · next k hp => exact costs_of_peek hp

theorem costs_of_fraction? {ds : Option (List Char)} (h : l.fraction? = (ds, k)) :
    l.reader.Costs k.reader 2 := by
  unfold fraction? at h
  split at h
  · next j ha =>
    obtain ⟨-, rfl⟩ := Prod.mk.inj h
    exact (costs_of_accept ha).trans (costs_of_takeWhile (p := isDigit) rfl)
  · next j ha =>
    obtain ⟨-, rfl⟩ := Prod.mk.inj h
    exact (costs_of_accept ha).mono (by decide)

variable (l)

theorem costs_text : l.reader.Costs l.text.2.reader 1 := by
  unfold text
  split
  · next c k hp =>
    have := costs_of_peek hp
    split <;> exact this
  · next k hp =>
    have := costs_of_peek hp
    split <;> exact this

theorem costs_insideParen : l.reader.Costs l.insideParen.2.reader 2 := by
  unfold insideParen
  split
  · exact (Reader.Costs.refl _).mono (by decide)
  · split
    · next c k hp =>
      have hk := (costs_of_peek hp).mono (b := 2) (by decide)
      split
      · exact hk
      · split
        · exact hk
        · split
          · exact hk
          · exact hk
          · exact hk
          · exact hk
          · exact (costs_of_peek hp).trans k.costs_unexpected
    · next k hp => exact (costs_of_peek hp).trans k.costs_unexpected

theorem costs_openParen : l.reader.Costs l.openParen.2.reader 2 := by
  unfold openParen
  split
  · next k ha =>
    have := (costs_of_accept ha).mono (b := 2) (by decide)
    split <;> exact this
  · next k ha => exact (costs_of_accept ha).trans k.costs_unexpected

theorem costs_closeParen : l.reader.Costs l.closeParen.2.reader 2 := by
  unfold closeParen
  split
  · exact (Reader.Costs.refl _).mono (by decide)
  · split
    · next k ha =>
      have := (costs_of_accept ha).mono (b := 2) (by decide)
      exact this
    · next k ha => exact (costs_of_accept ha).trans k.costs_unexpected

theorem costs_identifier : l.reader.Costs l.identifier.2.reader 2 := by
  unfold identifier
  split
  · next k ht => exact (costs_of_takeWhile ht).trans k.costs_unexpected
  · next word k hne ht =>
    have := (costs_of_takeWhile ht).mono (b := 2) (by decide)
    exact this

theorem costs_number : l.reader.Costs l.number.2.reader 4 := by
  unfold number
  split
  · next k ht => exact ((costs_of_takeWhile ht).trans k.costs_unexpected).mono (by decide)
  · next digits k hne ht =>
    split
    next fraction j hf =>
    split
    next rest i hr =>
    have hj := (costs_of_takeWhile ht).trans (costs_of_fraction? hf)
    have := hj.trans (costs_of_takeWhile hr)
    exact this

theorem costs_whitespace : l.reader.Costs l.whitespace.2.reader 2 := by
  unfold whitespace
  split
  · next k ht => exact (costs_of_takeWhile ht).trans k.costs_unexpected
  · next blanks k hne ht =>
    have := (costs_of_takeWhile ht).mono (b := 2) (by decide)
    exact this

theorem costs_comment : l.reader.Costs l.comment.2.reader 3 := by
  unfold comment
  split
  · next k ha =>
    split
    next body j ht =>
    have hj := (costs_of_accept ha).trans (costs_of_takeWhile ht)
    split
    · next c i hp =>
      have := hj.trans (costs_of_peek hp)
      exact this
    · next i hp =>
      have := hj.trans (costs_of_peek hp)
      exact this
  · next k ha => exact ((costs_of_accept ha).trans k.costs_unexpected).mono (by decide)

/-- **A step asks for the characters that it hands out, and a few times more.** -/
theorem costs_step (m : Mode) : l.reader.Costs (l.step m).2.reader 4 := by
  cases m with
  | text => exact l.costs_text.mono (by decide)
  | openParen => exact l.costs_openParen.mono (by decide)
  | insideParen => exact l.costs_insideParen.mono (by decide)
  | identifier => exact l.costs_identifier.mono (by decide)
  | number => exact l.costs_number
  | closeParen => exact l.costs_closeParen.mono (by decide)
  | whitespace => exact l.costs_whitespace.mono (by decide)
  | comment => exact l.costs_comment.mono (by decide)

/-- **A step hands out characters and takes them back**, and moves the reader in no other way. -/
theorem moves_step (m : Mode) : l.reader.Moves (l.step m).2.reader := (l.costs_step m).moves

end Lexer

end ParenLex
