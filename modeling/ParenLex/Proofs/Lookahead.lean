import ParenLex.Proofs.Delivery
import ParenLex.Reader

/-!
# A reader stands before a list of characters

Whatever its slot holds, a reader stands before the characters that it has still to hand out: the
one taken back and those of its feed. Each operation moves along that list.

* `next_cons`, `next_nil`: the next character is the first of the list, and may be taken back.
* `takeWhile_before`: a run is the longest at the head of the list.
-/

namespace ParenLex

/-- The character that was taken back. -/
def Slot.ahead : Slot → List Char
  | putBack c => [c]
  | _ => []

namespace Reader

/-- The characters still to be handed out. -/
def ahead (r : Reader) : List Char :=
  r.slot.ahead ++ match r.leftover with | some _ => [] | none => r.feed.chars

/-- What there is beside them, known once the reader has been there. -/
def ending (r : Reader) : Feed.Ending :=
  match r.leftover with
  | some bs => ⟨bs, r.failure.map (·.error), r.feed.stops⟩
  | none => { r.feed.ending with
      failure := r.feed.ending.failure.or (r.failure.map (·.error)) }

/-- **The reader stands before `cs`, which end in `e`, at offset `n`.** -/
structure Before (r : Reader) (cs : List Char) (e : Feed.Ending) (n : Nat) : Prop where
  ahead : r.ahead = cs
  ending : r.ending = e
  offset : r.offset = n

variable {r : Reader} {c : Char} {cs : List Char} {e : Feed.Ending} {n : Nat}

theorem before_self (r : Reader) : r.Before r.ahead r.ending r.offset := ⟨rfl, rfl, rfl⟩

theorem before_ofFeed (f : Feed) : (ofFeed f).Before f.chars f.ending 0 :=
  ⟨rfl, by simp [ofFeed, ending], rfl⟩

theorem stops_ending (r : Reader) : r.ending.stops = r.feed.stops := by
  unfold ending
  split
  · rfl
  · exact r.feed.stops_ending

theorem failure_of_ending (h : r.ending.failure = none) : r.failure = none := by
  unfold ending at h
  split at h
  · simpa using h
  · simpa using (Option.or_eq_none_iff.1 h).2

/-- Taking a character back undoes handing it out. -/
theorem backup_before (h : r.Before cs e (n + c.utf8Size)) (hs : r.slot = .taken c) :
    r.backup.Before (c :: cs) e n := by
  obtain ⟨ha, he, ho⟩ := h
  rw [backup, hs]
  refine ⟨?_, he, by simp [ho]⟩
  rw [← ha]
  simp [ahead, hs, Slot.ahead]

/-- **The first character of the list is the next one.** -/
theorem next_cons (h : r.Before (c :: cs) e n) : ∃ k, r.next = (some c, k) ∧
    k.Before cs e (n + c.utf8Size) ∧ k.backup.Before (c :: cs) e n := by
  obtain ⟨ha, he, ho⟩ := h
  suffices ∃ k, r.next = (some c, k) ∧ k.Before cs e (n + c.utf8Size) ∧ k.slot = .taken c by
    obtain ⟨k, h1, h2, h3⟩ := this
    exact ⟨k, h1, h2, backup_before h2 h3⟩
  by_cases hs : ∃ d, r.slot = .putBack d
  · obtain ⟨d, hs⟩ := hs
    simp only [ahead, hs, Slot.ahead, List.singleton_append, List.cons.injEq] at ha
    obtain ⟨rfl, ha⟩ := ha
    have hk : r.next = (some d, { r with slot := .taken d, offset := r.offset + d.utf8Size }) := by
      simp only [next, hs]
    refine ⟨_, hk, ⟨?_, he, by simp [ho]⟩, rfl⟩
    simpa [ahead, Slot.ahead] using ha
  · -- nothing was taken back, so the character comes from the feed
    have hn : r.next = r.fetch := by
      unfold next; split
      · next d hd => exact absurd ⟨d, hd⟩ hs
      · rfl
    have hsa : r.slot.ahead = [] := by
      cases hd : r.slot <;> simp_all [Slot.ahead]
    rw [ahead, hsa, List.nil_append] at ha
    cases hl : r.leftover with
    | some bs => simp [hl] at ha
    | none =>
      simp only [hl] at ha
      rcases hf : r.feed.fetch with ⟨d | ⟨bs, e'⟩, g⟩
      · rw [Feed.chars_of_char hf] at ha
        obtain ⟨rfl, rfl⟩ := List.cons.inj ha
        have hk : r.fetch = (some d, { r with
            feed := g, slot := .taken d, offset := r.offset + d.utf8Size }) := by
          simp only [fetch, hl, hf]
        refine ⟨_, hn.trans hk, ⟨?_, ?_, by simp [ho]⟩, rfl⟩
        · simp [ahead, Slot.ahead, hl]
        · rw [← he]; simp [ending, hl, Feed.ending_of_char hf]
      · rw [Feed.chars_of_ended hf] at ha
        exact absurd ha (by simp)

/-- **At the end of the list the reader finds the ending**, and stays there. -/
theorem next_nil (h : r.Before [] e n) : ∃ k, r.next = (none, k) ∧ k.Before [] e n ∧
    k.backup = k ∧ k.leftover = some e.bytes := by
  obtain ⟨ha, he, ho⟩ := h
  have hs : ∀ d, r.slot ≠ .putBack d := by
    intro d hd
    simp [ahead, hd, Slot.ahead] at ha
  have hn : r.next = r.fetch := by
    unfold next; split
    · next d hd => exact absurd hd (hs d)
    · rfl
  rw [hn]
  cases hl : r.leftover with
  | some bs =>
    have hk : r.fetch = (none, { r with slot := .empty }) := by simp only [fetch, hl]
    refine ⟨_, hk, ⟨?_, ?_, ho⟩, rfl, ?_⟩
    · simp [ahead, hl, Slot.ahead]
    · rw [← he]; simp [ending, hl]
    · rw [← he]; simp [ending, hl]
  | none =>
    rcases hf : r.feed.fetch with ⟨d | ⟨bs, e'⟩, g⟩
    · simp [ahead, hl, Feed.chars_of_char hf] at ha
    · have hk : r.fetch = (none, { r with
          feed := g, slot := .empty, leftover := some bs,
          failure := (e'.map (⟨r.offset, ·⟩)).or r.failure }) := by simp only [fetch, hl, hf]
      refine ⟨_, hk, ⟨?_, ?_, ho⟩, rfl, ?_⟩
      · simp [ahead, Slot.ahead]
      · rw [← he]
        cases e' <;> simp [ending, hl, Feed.ending_of_ended hf]
      · rw [← he]; simp [ending, hl, Feed.ending_of_ended hf]

/-- Looking ahead shows the first character and moves nothing. -/
theorem peek_before (h : r.Before cs e n) : r.peek.1 = cs.head? ∧ r.peek.2.Before cs e n ∧
    (cs = [] → r.peek.2.leftover = some e.bytes) := by
  cases cs with
  | nil =>
    obtain ⟨k, hk, h1, h2, h3⟩ := next_nil h
    simp only [peek, hk, h2]
    exact ⟨rfl, h1, fun _ => h3⟩
  | cons c cs =>
    obtain ⟨k, hk, -, h1⟩ := next_cons h
    simp only [peek, hk]
    exact ⟨rfl, h1, by simp⟩

theorem takeWhileOnto_before (p : Char → Bool) (acc : List Char) (h : r.Before cs e n) :
    (takeWhileOnto p acc r).1 = acc.reverse ++ cs.takeWhile p ∧
      (takeWhileOnto p acc r).2.Before (cs.dropWhile p) e (n + byteSize (cs.takeWhile p)) := by
  induction cs generalizing r n acc with
  | nil =>
    obtain ⟨k, hk, h1, -⟩ := next_nil h
    rw [takeWhileOnto]
    split <;> simp_all
  | cons c cs ih =>
    obtain ⟨k, hk, h1, h2⟩ := next_cons h
    rw [takeWhileOnto]
    split
    · next d k' hd =>
      obtain ⟨rfl, rfl⟩ : c = d ∧ k = k' := by simpa [hk] using hd
      by_cases hp : p c
      · obtain ⟨h3, h4⟩ := ih (c :: acc) h1
        rw [if_pos hp, List.takeWhile_cons_of_pos hp, List.dropWhile_cons_of_pos hp]
        exact ⟨by simp [h3], by simpa [Nat.add_assoc] using h4⟩
      · rw [if_neg hp, List.takeWhile_cons_of_neg hp, List.dropWhile_cons_of_neg hp]
        exact ⟨by simp, h2⟩
    · next k' hd => simp [hk] at hd

/-- **A run is the longest at the head of the list.** -/
theorem takeWhile_before (p : Char → Bool) (h : r.Before cs e n) :
    (r.takeWhile p).1 = cs.takeWhile p ∧
      (r.takeWhile p).2.Before (cs.dropWhile p) e (n + byteSize (cs.takeWhile p)) :=
  takeWhileOnto_before p [] h

end Reader

end ParenLex
