import ParenLex.Proofs.Tokens

/-!
# Lines are counted right

Wherever a lexer stands after any steps, its line and column are those that the line feeds among the
bytes before it make. Only runs of blanks move the line, so what carries this is that no other text
holds a line feed.

* `exact_advance`: a place reached by reading from the start is on the line that it says.
* `follows_step`: every step leads from such a place to such a place.
* `follows_of_reached`: so do steps from any modes, with the failure taken on the way or not.
* `lines_exact`: the positions of a lexer after any steps, and of all tokens, are exact.
-/

namespace ParenLex

/-- `k` is the index just after the last line feed of the bytes, 0 where there is none. -/
structure LineStart (before : List UInt8) (k : Nat) : Prop where
  le : k ≤ before.length
  after : k = 0 ∨ (before.take k).getLast? = some 10
  last : 10 ∉ before.drop k

/-- **A position is where the line feeds before it put it.** -/
structure Position.Exact (p : Position) (bytes : List UInt8) : Prop where
  offset : p.offset ≤ bytes.length
  line : p.line = 1 + (bytes.take p.offset).count 10
  column : ∃ k, p.lineStart = .ok k ∧ LineStart (bytes.take p.offset) k ∧ p.column = p.offset - k

/-! ### Line feeds -/

theorem lineStart_nil : LineStart [] 0 := ⟨Nat.le_refl 0, .inl rfl, by simp⟩

/-- A line feed starts a line. -/
theorem lineStart_lineFeed (before : List UInt8) :
    LineStart (before ++ [10]) (before ++ [10]).length :=
  ⟨Nat.le_refl _, .inr (by rw [List.take_length]; simp), by simp⟩

/-- Other bytes stay on the line. -/
theorem LineStart.append {before bs : List UInt8} {k : Nat} (h : LineStart before k)
    (hb : 10 ∉ bs) : LineStart (before ++ bs) k := by
  obtain ⟨h1, h2, h3⟩ := h
  refine ⟨by simp; omega, ?_, ?_⟩
  · rwa [List.take_append_of_le_length h1]
  · rw [List.drop_append_of_le_length h1]
    simp [h3, hb]

namespace Place

/-- The line reached from the start is the one that begins after the last line feed read. -/
theorem lineStart_advance (cs : List Char) :
    LineStart (Utf8.encode cs) (start.advance cs).line.start := by
  induction cs using List.reverseRecOn with
  | nil => exact lineStart_nil
  | append_singleton cs c ih =>
    rw [advance_append, Utf8.encode_append]
    -- the last character read is the one that may start a line
    by_cases hc : c = '\n'
    · subst hc
      have h := lineStart_lineFeed (Utf8.encode cs)
      rw [List.length_append, Utf8.length_encode] at h
      have hn : ((start.advance cs).advance ['\n']).line.start = byteSize cs + 1 := by
        simp [advance, Line.advance, start]
        rfl
      rw [hn]
      exact h
    · have hn : '\n' ∉ [c] := by simpa using Ne.symm hc
      rw [advance_of_not_mem hn]
      refine ih.append fun h => hc ?_
      simpa [Utf8.encode, Utf8.lineFeed_mem_encodeChar] using h

/-- **A place reached by reading from the start is on the line that it says.** -/
theorem exact_advance (cs : List Char) (after : List UInt8) :
    (start.advance cs).position.Exact (Utf8.encode cs ++ after) := by
  have ho : (start.advance cs).position.offset = (Utf8.encode cs).length := by
    rw [Utf8.length_encode]
    exact Nat.zero_add _
  have hl := lineStart_advance cs
  have hc : (start.advance cs).position.column =
      (Utf8.encode cs).length - (start.advance cs).line.start := by
    rw [← ho]; rfl
  refine ⟨by rw [ho]; simp, ?_, (start.advance cs).line.start,
    Position.lineStart_eq_ok_iff.2 ?_, ?_, ?_⟩
  · rw [ho, List.take_left, Utf8.count_encode]
    exact Line.number_advance _ _ _
  · rw [hc, ho]
    have := hl.le
    omega
  · rw [ho, List.take_left]
    exact hl
  · rw [hc, ho]

end Place

/-! ### Steps -/

namespace View

/-- **The view has come from the start of the characters to where it is**, and its last token ends
there. -/
structure Follows (v : View) (cs : List Char) : Prop where
  here : ∃ past, cs = past ++ v.ahead ∧ v.here = Place.start.advance past
  mark : v.mark = v.here

variable {v : View} {cs : List Char} {m : Mode}

/-- **A step that does not overflow follows on**, and its token starts at the mark. -/
theorem follows_step (h : v.Follows cs) (hf : ∀ f, (v.step m).1.next ≠ .fault f) :
    (v.step m).2.Follows cs := by
  have ho := v.outcome_step m
  generalize v.step m = x at ho hf ⊢
  cases ho with
  | choose n => exact h
  | fail e => exact h
  | exhausted => exact h
  | take p n ht =>
    -- only a token moves the reader, and it takes the mark along
    obtain ⟨past, hc, hh⟩ := h.here
    obtain ⟨rest, hr⟩ := ht.begins
    refine ⟨⟨past ++ p.text, ?_, ?_⟩, rfl⟩
    · simp only [after]
      rw [hc, ← hr, List.drop_left, List.append_assoc]
    · simp only [after]
      rw [hh, Place.advance_append]
  | fault w => exact absurd rfl (hf _)

theorem position_step {t : Token} (ht : (v.step m).1.token = some t) :
    t.position = v.mark.position := by
  have ho := v.outcome_step m
  generalize v.step m = x at ho ht
  cases ho with
  | choose n => cases ht
  | fail e =>
    obtain rfl := Option.some.inj ht
    rfl
  | exhausted => cases ht
  | take p n =>
    obtain rfl := Option.some.inj ht
    rfl
  | fault w => cases ht

/-- Places that a view has come to are exact. -/
theorem Follows.exact {f : Feed} (h : v.Follows f.chars) :
    v.mark.position.Exact f.delivered ∧ v.here.position.Exact f.delivered := by
  obtain ⟨past, hc, hh⟩ := h.here
  obtain ⟨after, hd, -, -⟩ := f.delivered_eq
  rw [h.mark, and_self, hh, hd, hc, Utf8.encode_append, List.append_assoc]
  exact Place.exact_advance past _

end View

namespace Lexer

/-- The lexer after steps from these modes, unless a counter overflows on the way. -/
def after? (l : Lexer) : List Mode → Option Lexer
  | [] => some l
  | m :: ms =>
    match (l.step m).1.next with
    | .fault _ => none
    | _ => (l.step m).2.after? ms

variable {l k : Lexer} {m : Mode} {cs : List Char} {f : Feed}

/-- **Steps from any modes in any order follow on.** -/
theorem follows_after? {ms : List Mode} (h : l.view.Follows cs) (hk : l.after? ms = some k) :
    k.view.Follows cs := by
  induction ms generalizing l with
  | nil =>
    obtain rfl := Option.some.inj hk
    exact h
  | cons m ms ih =>
    rw [after?] at hk
    split at hk
    · cases hk
    · next hn =>
      refine ih ?_ hk
      rw [view_of_step]
      refine View.follows_step h ?_
      rw [← l.step_view m]
      exact hn

theorem exact_token {t : Token} (h : l.view.Follows f.chars) (ht : (l.step m).1.token = some t) :
    t.position.Exact f.delivered := by
  rw [View.position_step (v := l.view) (m := m) (by rw [← l.step_view m]; exact ht)]
  exact h.exact.1

theorem follows_ofFeed (f : Feed) (d : Nat) : ((ofFeed f).withDepth d).view.Follows f.chars := by
  have hv : ((ofFeed f).withDepth d).view = { (ofFeed f).view with depth := d } := rfl
  rw [hv, view_ofFeed]
  exact ⟨⟨[], rfl, rfl⟩, rfl⟩

/-! ### Lexers on their way -/

/-- **A lexer on its way through a feed** from depth `d` on: steps from any modes, in any order and
without a fault, have made the tokens, and the failure may have been taken at any time. -/
inductive Reached (f : Feed) (d : Nat) : List Token → Lexer → Prop
  | start : Reached f d [] ((ofFeed f).withDepth d)
  | step {ts : List Token} {l : Lexer} (m : Mode) : Reached f d ts l →
      (∀ e, (l.step m).1.next ≠ .fault e) →
      Reached f d (ts ++ (l.step m).1.token.toList) (l.step m).2
  | takeFailure {ts : List Token} {l : Lexer} : Reached f d ts l → Reached f d ts l.takeFailure.2

variable {d : Nat} {ts : List Token}

/-- Taking the failure leaves the characters ahead, and all places, as they are. -/
theorem view_takeFailure (l : Lexer) :
    l.takeFailure.2.view = { l.view with ending := l.takeFailure.2.view.ending } := rfl

/-- **Wherever a lexer is, it has come there from the start of its feed.** -/
theorem follows_of_reached (h : Reached f d ts l) : l.view.Follows f.chars := by
  induction h with
  | start => exact follows_ofFeed f d
  | step m _ hn ih =>
    rw [view_of_step]
    refine View.follows_step ih ?_
    rw [← step_view]
    exact hn
  | takeFailure _ ih =>
    rw [view_takeFailure]
    exact ⟨ih.here, ih.mark⟩

end Lexer

namespace Scan

variable {s : Scan} {f : Feed}

/-- The token that a turn offers is exact, and the next turn begins where the same can be said. -/
theorem exact_turn (h : s.lexer.view.Follows f.chars) :
    (∀ t, (s.turn false).offer = some t → t.position.Exact f.delivered) ∧
      ((s.turn false).next.over? = none → (s.turn false).next.lexer.view.Follows f.chars) := by
  rcases hs : s.stage with m | k | r
  · obtain ⟨h2, h3⟩ := turn_running hs
    rw [h2, h3]
    refine ⟨fun t ht => Lexer.exact_token h ht, fun hn => ?_⟩
    show (s.lexer.step m).2.view.Follows f.chars
    rw [Lexer.view_of_step]
    refine View.follows_step h fun e he => ?_
    rw [← s.lexer.step_view m] at he
    have he : (s.lexer.step m).1.next = .fault e := he
    simp [over?, stageAfter, he] at hn
  · have ht : s.turn false = s.stopTurn k := by simp [turn, hs]
    rw [ht]
    refine ⟨fun t ht => ?_, fun hn => by cases hn⟩
    simp only [stopTurn] at ht
    split at ht
    · obtain rfl := Option.some.inj ht
      exact h.exact.2
    · cases ht
  · have ht : s.turn false = ⟨[], none, [], s⟩ := by simp [turn, hs]
    rw [ht]
    exact ⟨fun t ht => absurd ht (by simp), fun _ => h⟩

/-- **All that a scan offers is exact.** -/
theorem exact_offers (h : s.lexer.view.Follows f.chars) :
    ∀ t ∈ s.offers, t.position.Exact f.delivered := by
  unfold offers
  fun_induction course s with
  | case1 s r ho => simp
  | case2 s ho ih =>
    obtain ⟨h1, h2⟩ := exact_turn h
    intro t ht
    rcases List.mem_filterMap.1 ht with ⟨u, hu, hut⟩
    rcases List.mem_cons.1 hu with rfl | hu
    · exact h1 t hut
    · cases hn : (s.turn false).next.over? with
      | some r => rw [course_over hn] at hu; cases hu
      | none => exact ih (h2 hn) t (List.mem_filterMap.2 ⟨u, hu, hut⟩)

end Scan

/-- **Line accounting is exact**: after any steps from any depth on, in any order and without
overflow, for the positions of the lexer, of the end of the input there and of the tokens that come
next; and for every token that a run offers. -/
theorem lines_exact (f : Feed) :
    (∀ d ms k, ((Lexer.ofFeed f).withDepth d).after? ms = some k →
      k.position.Exact f.delivered ∧ k.eofToken.position.Exact f.delivered ∧
        ∀ m t, (k.step m).1.token = some t → t.position.Exact f.delivered) ∧
    ∀ (σ : Type) (sink : Sink σ) (st : σ) (settings : Settings),
      ∀ t ∈ ((Scan.ofFeed f settings).run sink st).offered, t.position.Exact f.delivered := by
  refine ⟨fun d ms k hk => ?_, fun σ sink st settings t ht => ?_⟩
  · have h := Lexer.follows_after? (Lexer.follows_ofFeed f d) hk
    exact ⟨h.exact.1, h.exact.2, fun m t ht => Lexer.exact_token h ht⟩
  · exact Scan.exact_offers (Lexer.follows_ofFeed f 0) t
      ((Scan.offered_prefix sink st _).subset ht)

/-- An open paren and a line feed, read from depth 3 on. -/
theorem lines_exact_blank :
    let f := Feed.ofItems [.bytes [0x28, 0x0A]]
    ∃ k, ((Lexer.ofFeed f).withDepth 3).after? [.openParen, .whitespace] = some k ∧
      k.position.Exact f.delivered ∧ k.eofToken.position.Exact f.delivered := by
  intro f
  have hs : (((Lexer.ofFeed f).withDepth 3).after? [.openParen, .whitespace]).isSome = true := by
    decide +kernel
  obtain ⟨k, hk⟩ := Option.isSome_iff_exists.1 hs
  obtain ⟨h1, h2, -⟩ := (lines_exact f).1 3 _ k hk
  exact ⟨k, hk, h1, h2⟩

end ParenLex
