import ParenLex.Proofs.Lines

/-!
# Numbers are read as words are

A number is read in parts, and an identifier in one run. Where both may stand they come to the same:
each part goes on where the one before it has stopped, and asks for nothing that the one run does not
ask for. So the two steps make the same token and leave the same lexer.

* `Reader.takeWhile_split`: a run may be read in two.
* `number_eq_identifier`: the two steps are one.
* `word_of_number`: what they take, in a lexer on its way through a feed.
-/

namespace ParenLex

namespace Reader

variable {r k : Reader} {c : Char} {p q : Char → Bool}

/-- A character taken back is handed out again, and nothing else has changed. -/
theorem next_backup (h : r.next = (some c, k)) : k.backup.next = (some c, k) := by
  have hslot : k.slot = .taken c := by
    have hs := r.slot_next
    rw [h] at hs
    exact hs
  have hsize : c.utf8Size ≤ k.offset := by
    unfold next at h
    split at h
    · next d hd =>
      obtain ⟨rfl, rfl⟩ : d = c ∧ _ = k := by simpa using h
      exact Nat.le_add_left _ _
    · unfold fetch at h
      split at h
      · cases h
      · split at h
        · next d f hf =>
          obtain ⟨rfl, rfl⟩ : d = c ∧ _ = k := by simpa using h
          exact Nat.le_add_left _ _
        · cases h
  obtain ⟨feed, slot, offset, leftover, failure⟩ := k
  obtain rfl : slot = .taken c := hslot
  have hback : offset - c.utf8Size + c.utf8Size = offset := Nat.sub_add_cancel hsize
  simp [backup, next, hback]

/-- At the end no call changes anything any more. -/
theorem next_ended (h : r.next = (none, k)) : k.next = (none, k) := by
  have hslot : k.slot = .empty := by
    have hs := r.slot_next
    rw [h] at hs
    exact hs
  have hleft : k.leftover ≠ none := by
    unfold next at h
    split at h
    · cases h
    · unfold fetch at h
      split at h
      · next bs hl =>
        obtain rfl := (Prod.mk.inj h).2
        simp [hl]
      · split at h
        · cases h
        · obtain rfl := (Prod.mk.inj h).2
          simp
  obtain ⟨bs, hb⟩ := Option.ne_none_iff_exists'.1 hleft
  simp only [next, hslot, fetch, hb]
  rw [← hslot, ← hb]

/-! ### Runs -/

/-- Characters handed out before a run stand before it. -/
theorem takeWhileOnto_append (p : Char → Bool) (acc before : List Char) (r : Reader) :
    takeWhileOnto p (acc ++ before) r =
      (before.reverse ++ (takeWhileOnto p acc r).1, (takeWhileOnto p acc r).2) := by
  fun_induction takeWhileOnto p acc r with
  | case1 acc r c k h hp ih =>
    rw [← ih, takeWhileOnto]
    split <;> simp_all
  | case2 acc r c k h hp =>
    rw [takeWhileOnto]
    split <;> simp_all
  | case3 acc r k h =>
    rw [takeWhileOnto]
    split <;> simp_all

theorem takeWhile_of_pos (h : r.next = (some c, k)) (hp : p c = true) :
    r.takeWhile p = (c :: (k.takeWhile p).1, (k.takeWhile p).2) := by
  rw [takeWhile, takeWhileOnto]
  split
  · next d k' hd =>
    obtain ⟨rfl, rfl⟩ : c = d ∧ k = k' := by simpa [h] using hd
    rw [if_pos hp]
    exact takeWhileOnto_append p [] [c] k
  · next k' hd => simp [h] at hd

theorem takeWhile_of_neg (h : r.next = (some c, k)) (hp : ¬ p c = true) :
    r.takeWhile p = ([], k.backup) := by
  rw [takeWhile, takeWhileOnto]
  split
  · next d k' hd =>
    obtain ⟨rfl, rfl⟩ : c = d ∧ k = k' := by simpa [h] using hd
    rw [if_neg hp]
    rfl
  · next k' hd => simp [h] at hd

theorem takeWhile_of_ended (h : r.next = (none, k)) : r.takeWhile p = ([], k) := by
  rw [takeWhile, takeWhileOnto]
  split
  · next d k' hd => simp [h] at hd
  · next k' hd =>
    obtain rfl : k = k' := by simpa [h] using hd
    rfl

/-- **A run may be read in two**, the first with characters that may all stand in the whole. -/
theorem takeWhile_split (hpq : ∀ c, p c = true → q c = true) (r : Reader) :
    r.takeWhile q = ((r.takeWhile p).1 ++ ((r.takeWhile p).2.takeWhile q).1,
      ((r.takeWhile p).2.takeWhile q).2) := by
  rcases hn : r.next with ⟨c | c, k⟩
  · rw [takeWhile_of_ended hn, takeWhile_of_ended hn, takeWhile_of_ended (next_ended hn)]
    rfl
  · by_cases hp : p c = true
    · have hlt := size_of_next hn
      rw [takeWhile_of_pos hn hp, takeWhile_of_pos hn (hpq c hp), takeWhile_split hpq k]
      rfl
    · -- the character that ends the first run is looked at again
      rw [takeWhile_of_neg hn hp]
      have hb := next_backup hn
      by_cases hq : q c = true
      · rw [takeWhile_of_pos hn hq, takeWhile_of_pos hb hq]
        rfl
      · rw [takeWhile_of_neg hn hq, takeWhile_of_neg hb hq]
        rfl
termination_by r.size

end Reader

namespace Lexer

variable {l k : Lexer} {c : Char}

/-- The word that stands next may be read from its digits on. -/
theorem takeWhile_digits (l : Lexer) : l.takeWhile isWordChar =
    ((l.takeWhile isDigit).1 ++ ((l.takeWhile isDigit).2.takeWhile isWordChar).1,
      ((l.takeWhile isDigit).2.takeWhile isWordChar).2) := by
  have h := Reader.takeWhile_split (p := isDigit) (q := isWordChar)
    (fun _ hc => isWordChar_of_isDigit hc) l.reader
  simp only [takeWhile]
  rw [h]

/-- A word that goes on with the character accepted. -/
theorem takeWhile_of_accept (hc : isWordChar c = true) (h : l.accept c = (true, k)) :
    l.takeWhile isWordChar =
      (c :: (k.takeWhile isWordChar).1, (k.takeWhile isWordChar).2) := by
  unfold accept at h
  split at h
  · next d r hr =>
    split at h
    · next hd =>
      obtain ⟨-, rfl⟩ := Prod.mk.inj h
      subst hd
      simp only [takeWhile]
      rw [Reader.takeWhile_of_pos hr hc]
    · cases h
  · cases h

/-- A character that is not accepted leaves the runs as they are. -/
theorem takeWhile_of_not_accept (p : Char → Bool) (h : l.accept c = (false, k)) :
    l.takeWhile p = k.takeWhile p := by
  unfold accept at h
  split at h
  · next d r hr =>
    split at h
    · cases h
    · obtain ⟨-, rfl⟩ := Prod.mk.inj h
      simp only [takeWhile]
      by_cases hp : p d = true
      · rw [Reader.takeWhile_of_pos hr hp, Reader.takeWhile_of_pos (Reader.next_backup hr) hp]
      · rw [Reader.takeWhile_of_neg hr hp, Reader.takeWhile_of_neg (Reader.next_backup hr) hp]
  · next r hr =>
    obtain ⟨-, rfl⟩ := Prod.mk.inj h
    simp only [takeWhile]
    rw [Reader.takeWhile_of_ended hr, Reader.takeWhile_of_ended (Reader.next_ended hr)]

/-- A word may be read from its fraction on. -/
theorem takeWhile_fraction? {ds : Option (List Char)} (h : l.fraction? = (ds, k)) :
    l.takeWhile isWordChar = (ds.elim [] ('.' :: ·) ++ (k.takeWhile isWordChar).1,
      (k.takeWhile isWordChar).2) := by
  have hpoint : isWordChar '.' = true := by decide
  unfold fraction? at h
  split at h
  · next j ha =>
    obtain ⟨rfl, rfl⟩ := Prod.mk.inj h
    rw [takeWhile_of_accept hpoint ha, j.takeWhile_digits]
    rfl
  · next j ha =>
    obtain ⟨rfl, rfl⟩ := Prod.mk.inj h
    exact takeWhile_of_not_accept isWordChar ha

/-- A number leaves the lexer that an identifier leaves. -/
theorem lexer_number (h : (l.takeWhile isDigit).1 ≠ []) :
    (l.step .number).2 = (l.step .identifier).2 := by
  obtain ⟨ds, k, hd⟩ : ∃ ds k, l.takeWhile isDigit = (ds, k) := ⟨_, _, rfl⟩
  obtain ⟨fraction, j, hf⟩ : ∃ fraction j, k.fraction? = (fraction, j) := ⟨_, _, rfl⟩
  obtain ⟨rest, i, hr⟩ : ∃ rest i, j.takeWhile isWordChar = (rest, i) := ⟨_, _, rfl⟩
  have hword := l.takeWhile_digits
  rw [hd] at h hword
  rw [takeWhile_fraction? hf, hr] at hword
  obtain ⟨d, ds, rfl⟩ := List.exists_cons_of_ne_nil h
  simp only [step, number, identifier, hd, hf, hr, hword]
  rfl

/-- **A number is read as an identifier would be**: the steps from the two modes have the same
outcome, and leave one and the same lexer. -/
theorem number_eq_identifier (hc : l.peek.1 = some c) (hd : isDigit c = true) :
    l.step .number = l.step .identifier := by
  rw [peek_eq_head?] at hc
  obtain ⟨cs, ha⟩ := List.head?_eq_some_iff.1 hc
  apply Prod.ext
  · -- the outcomes are those of the view, which takes a word for both
    have hview : (l.view.step .number).1 = (l.view.step .identifier).1 := by
      simp only [View.step]
      rw [if_pos (by simp [ha, hd])]
    have hnumber := congrArg Prod.fst (l.step_view .number)
    have hident := congrArg Prod.fst (l.step_view .identifier)
    exact hnumber.trans (hview.trans hident.symm)
  · apply lexer_number
    obtain ⟨k, hk, -⟩ := l.takeWhile_eq isDigit
    simp [hk, ha, hd]

variable {f : Feed} {d : Nat} {ts : List Token}

/-- **A number is the word that stands there.** Wherever steps have led a lexer through a feed, if a
digit comes next, the step from the mode for numbers is the step from that for identifiers: neither
its outcome nor anything that is done with the lexer after it tells the two apart. What they take is
the longest run of word characters, whatever ends it: another character, the end of the input, bytes
that make no character or a failed read. -/
theorem word_of_number (hl : Reached f d ts l) (hc : l.peek.1 = some c) (hd : isDigit c = true) :
    l.step .number = l.step .identifier ∧
    ∃ past word rest, f.chars = past ++ word ++ rest ∧ l.position.offset = byteSize past ∧
      word.head? = some c ∧ (∀ b ∈ word, isWordChar b = true) ∧
      (∀ b, rest.head? = some b → isWordChar b = false) ∧
      (l.step .number).1 =
        ⟨some ⟨.ofWord word, String.ofList word, l.position⟩, .proceed .insideParen⟩ ∧
      (l.step .number).2.position.offset = byteSize (past ++ word) := by
  have hsame := number_eq_identifier hc hd
  obtain ⟨⟨past, hchars, hhere⟩, hmark⟩ := follows_of_reached hl
  rw [peek_eq_head?] at hc
  obtain ⟨cs, ha⟩ := List.head?_eq_some_iff.1 hc
  have hword : l.view.ahead.takeWhile isWordChar = c :: cs.takeWhile isWordChar := by
    rw [ha, List.takeWhile_cons_of_pos (isWordChar_of_isDigit hd)]
  have hoff : l.position.offset = byteSize past := by
    show l.view.mark.offset = _
    rw [hmark, hhere, Place.offset_advance]
    exact Nat.zero_add _
  -- what the step comes to is what it comes to for the view
  have hstep : l.view.step .identifier = l.view.take (.ofWord (l.view.ahead.takeWhile isWordChar))
      (l.view.ahead.takeWhile isWordChar) .insideParen := by
    rw [View.step, View.run, hword]
  have hview := (l.step_view .identifier).trans hstep
  refine ⟨hsame, past, l.view.ahead.takeWhile isWordChar, l.view.ahead.dropWhile isWordChar, ?_,
    hoff, ?_, ?_, ?_, ?_, ?_⟩
  · rw [List.append_assoc, List.takeWhile_append_dropWhile]
    exact hchars
  · rw [hword]
    rfl
  · intro b hb
    exact List.mem_takeWhile_imp hb
  · intro b hb
    have hnot := l.view.ahead.head?_dropWhile_not isWordChar
    rw [hb] at hnot
    simpa using hnot
  · rw [hsame]
    exact congrArg Prod.fst hview
  · rw [hsame]
    have hafter : (l.step .identifier).2.view = _ := congrArg Prod.snd hview
    show (l.step .identifier).2.view.mark.offset = _
    rw [hafter]
    show (l.view.here.advance _).offset = _
    rw [Place.offset_advance, hhere, Place.offset_advance, byteSize_append]
    exact congrArg (· + _) (Nat.zero_add _)

/-- A number that goes on with a letter and comes to a failed read. -/
theorem word_of_number_failed_read :
    let f : Feed := .ofItems [.bytes [0x28, 0x31, 0x2E, 0x32, 0x65],
      .failure ⟨.connectionReset, "reset"⟩]
    let l := (((ofFeed f).withDepth 0).step .openParen).2
    Reached f 0 [⟨.openParen, "(", .start⟩] l ∧ l.peek.1 = some '1' ∧ isDigit '1' = true ∧
      l.step .number = l.step .identifier ∧
      (l.step .number).1 = ⟨some ⟨.identifier, "1.2e", ⟨1, 1, 1⟩⟩, .proceed .insideParen⟩ ∧
      (l.step .identifier).2.takeFailure.1 = some ⟨.connectionReset, "reset"⟩ := by
  intro f l
  have hopen : (((ofFeed f).withDepth 0).step .openParen).1 =
      ⟨some ⟨.openParen, "(", .start⟩, .proceed .insideParen⟩ := by decide +kernel
  have hl : Reached f 0 [⟨.openParen, "(", .start⟩] l := by
    have hs := (Reached.start (f := f) (d := 0)).step .openParen (by simp [hopen])
    rwa [hopen] at hs
  have hpeek : l.peek.1 = some '1' := by decide +kernel
  have hdigit : isDigit '1' = true := by decide
  obtain ⟨hsame, -⟩ := word_of_number hl hpeek hdigit
  have htoken : (l.step .number).1 =
      ⟨some ⟨.identifier, "1.2e", ⟨1, 1, 1⟩⟩, .proceed .insideParen⟩ := by decide +kernel
  refine ⟨hl, hpeek, hdigit, hsame, htoken, ?_⟩
  rw [← hsame]
  decide +kernel

end Lexer

end ParenLex
