import ParenLex.Proofs.Closing
import ParenLex.Proofs.Counters

/-!
# No byte is asked for early

A lexer looks at one character beyond what it has made tokens of, and at none after a paren. So when
a token is offered, the bytes that have been asked for are those up to its end and no more than it
takes to know the character there, or to know that there is none.

* `seeks_of_ended`: what a reader asks for where no character comes.
* `looks_of_along`: what it has asked for wherever it stands.
* `demand_of_offered`: what has been asked for when a token is offered.
-/

namespace ParenLex

namespace Utf8

/-- **What it takes to know the character at the head of bytes**: its own bytes, or those that make
none and, if they announce more, the stray byte in the place of the next. -/
inductive Seeks (bs : List UInt8) : List UInt8 → Prop
  | char (c : Char) : String.utf8EncodeChar c <+: bs → Seeks bs (String.utf8EncodeChar c)
  | cut : Seeks bs (broken bs)
  | stray (b : UInt8) : isOpen (broken bs) = true → isContinuation b = false →
      broken bs ++ [b] <+: bs → Seeks bs (broken bs ++ [b])

variable {bs next : List UInt8}

theorem width_le (lead : UInt8) : width lead ≤ 4 := by
  unfold width
  split_ifs <;> decide

theorem length_broken_le (bs : List UInt8) : (broken bs).length ≤ 4 := by
  cases bs with
  | nil => exact Nat.zero_le 4
  | cons lead bs =>
    have h1 : ((bs.take (width lead - 1)).takeWhile isContinuation).length ≤
        (bs.take (width lead - 1)).length := (List.takeWhile_prefix _).length_le
    have h2 := bs.length_take_le (width lead - 1)
    have h3 := width_le lead
    simp only [broken, List.length_cons]
    omega

/-- It takes four bytes at most. -/
theorem Seeks.length_le (h : Seeks bs next) : next.length ≤ 4 := by
  cases h with
  | char c =>
    rw [String.length_utf8EncodeChar]
    exact c.utf8Size_le_four
  | cut => exact length_broken_le bs
  | stray b ho =>
    rw [List.length_append, List.length_singleton]
    cases bs with
    | nil => decide
    | cons lead bs =>
      have h := width_le lead
      simp only [broken, isOpen, decide_eq_true_eq] at ho
      simp only [broken, List.length_cons]
      omega

end Utf8

namespace Feed

variable {f g : Feed} {ps : List Pull} {c : Char} {cs : List Char} {bs : List UInt8}
  {e : Option ReadError} {n : Nat}

/-- **The requests from one feed to another have been answered with `n` bytes.** -/
def Yields (f g : Feed) (n : Nat) : Prop := ∃ ps, Requests f ps g ∧ (ps.map Pull.size).sum = n

theorem size_of_requests (h : Requests f ps g) : g.size + (ps.map Pull.size).sum = f.size := by
  induction h with
  | refl => rfl
  | @pull f g ps _ ih =>
    have hp := f.size_pull
    rw [List.map_cons, List.sum_cons]
    omega

/-- Whichever requests lead there, the answers are the bytes that are gone. -/
theorem yields_iff (h : Requests f ps g) : f.Yields g n ↔ g.size + n = f.size := by
  constructor
  · rintro ⟨qs, hq, rfl⟩
    exact size_of_requests hq
  · intro hn
    have := size_of_requests h
    exact ⟨ps, h, by omega⟩

/-! ### Bytes asked for -/

/-- A tail asks for its bytes, and for the stray one that ends it. -/
theorem size_tail_cases (f : Feed) (n : Nat) :
    (f.tail n).rest.size + (f.tail n).bytes.length = f.size ∨
    ∃ b, Utf8.isContinuation b = false ∧ (f.tail n).bytes.length < n ∧
      (f.tail n).bytes ++ [b] <+: f.delivered ∧
      (f.tail n).rest.size + ((f.tail n).bytes.length + 1) = f.size := by
  fun_induction tail f n with
  | case1 f => exact .inl rfl
  | case2 f n b g hp hb t ih =>
    have hs := size_of_pull hp
    simp only [Pull.size] at hs
    rw [(pulls_of_pull hp).1]
    rcases ih with h | ⟨x, h1, h2, h3, h4⟩
    · refine .inl ?_
      simp only [t, List.length_cons]
      omega
    · refine .inr ⟨x, h1, Nat.succ_lt_succ h2, List.cons_prefix_cons.2 ⟨rfl, h3⟩, ?_⟩
      simp only [t, List.length_cons]
      omega
  | case3 f n b g hp hb =>
    have hs := size_of_pull hp
    rw [(pulls_of_pull hp).1]
    exact .inr ⟨b, by simpa using hb, Nat.succ_pos n, List.cons_prefix_cons.2 ⟨rfl, List.nil_prefix⟩,
      hs⟩
  | case4 f n g hp => exact .inl (size_of_pull hp)
  | case5 f n e g hp => exact .inl (size_of_pull hp)

/-- A character costs its own bytes. -/
theorem size_of_char (h : f.fetch = (.char c, g)) : g.size + c.utf8Size = f.size := by
  obtain ⟨lead, rest, k, hp, hc, hr, hn, rfl⟩ := lead_of_char h
  have hs := size_of_pull hp
  simp only [Pull.size] at hs
  have hlen : c.utf8Size = rest.length + 1 := by
    rw [← String.length_utf8EncodeChar, hc, List.length_cons]
  rcases k.size_tail_cases (Utf8.width lead - 1) with ht | ⟨b, -, hlt, -⟩
  · rw [hr] at ht
    omega
  · rw [hr] at hlt
    omega

/-- Where none comes, what has been asked for is what it takes to know. -/
theorem seeks_of_ended (h : f.fetch = (.ended bs e, g)) :
    ∃ next, Utf8.Seeks f.delivered next ∧ g.size + next.length = f.size := by
  obtain ⟨hb, -⟩ := ended_cases h
  rcases lead_of_ended h with ⟨rfl, -, -, p, hp, h0⟩ | ⟨lead, k, hp, rfl, -, rfl⟩
  · have hs := size_of_pull hp
    exact ⟨_, .cut, by rw [← hb, List.length_nil]; omega⟩
  · have hs := size_of_pull hp
    simp only [Pull.size] at hs
    rcases k.size_tail_cases (Utf8.width lead - 1) with ht | ⟨b, h1, h2, h3, h4⟩
    · refine ⟨_, .cut, ?_⟩
      rw [← hb, List.length_cons]
      omega
    · refine ⟨_, .stray b ?_ h1 ?_, ?_⟩
      · rw [← hb]
        simp only [Utf8.isOpen, decide_eq_true_eq]
        omega
      · rw [← hb, (pulls_of_pull hp).1]
        exact List.cons_prefix_cons.2 ⟨rfl, h3⟩
      · rw [← hb, List.length_append, List.length_cons, List.length_singleton]
        omega

theorem Fetches.size (h : Fetches f cs g) : g.size + byteSize cs = f.size := by
  induction h with
  | refl => rfl
  | char _ hc ih =>
    have := size_of_char hc
    rw [byteSize_append, byteSize_cons, byteSize_nil]
    omega

theorem Yields.unique {i j : Nat} (hi : f.Yields g i) (hj : f.Yields g j) : i = j := by
  obtain ⟨ps, hp, -⟩ := id hi
  rw [yields_iff hp] at hi hj
  omega

/-- **No further than a look beyond the first `n` bytes**: these have been asked for, and maybe what
it takes to know the character after them. -/
def Looks (f g : Feed) (n : Nat) : Prop :=
  f.Yields g n ∨ ∃ next, Utf8.Seeks (f.delivered.drop n) next ∧ f.Yields g (n + next.length)

theorem Looks.exists_yields (h : f.Looks g n) : ∃ m, f.Yields g m := by
  rcases h with h | ⟨next, -, h⟩
  · exact ⟨_, h⟩
  · exact ⟨_, h⟩

/-- That is four bytes more at most. -/
theorem Looks.le {m : Nat} (h : f.Looks g n) (hm : f.Yields g m) : m ≤ n + 4 := by
  rcases h with h | ⟨next, hn, h⟩
  · have := hm.unique h
    omega
  · have := hm.unique h
    have := hn.length_le
    omega

end Feed

namespace Reader

variable {r k : Reader} {f : Feed} {past : List Char}

/-- Requests have led to where a reader is. -/
theorem exists_requests (hd : r.DrawnFrom f) : ∃ ps, f.Requests ps r.feed := by
  by_cases hl : r.leftover = none
  · obtain ⟨⟨ps, hp, -⟩, -⟩ := within_of_reading hd hl
    exact ⟨ps, hp⟩
  · obtain ⟨h1, h2⟩ := requests_of_ended hd hl
    by_cases hr : f.RunsOut
    · obtain ⟨ps, hp, -⟩ := h1 hr
      exact ⟨ps, hp⟩
    · obtain ⟨ps, hp, -⟩ := h2 hr
      exact ⟨ps, hp⟩

/-- Before the end a reader has asked for the characters handed out and the one taken back. -/
theorem size_of_reading (hd : r.DrawnFrom f) (ha : r.Along f.chars past)
    (hl : r.leftover = none) :
    f.delivered = Utf8.encode (past ++ r.slot.ahead) ++ r.feed.delivered ∧
      r.feed.size + (r.offset + byteSize r.slot.ahead) = f.size := by
  obtain ⟨-, cs, hf⟩ := hd.reading hl
  have hcs : cs = past ++ r.slot.ahead := by
    have hc := ha.chars
    rw [hf.chars, ahead, hl, ← List.append_assoc] at hc
    exact List.append_cancel_right hc
  have hs := hf.size
  rw [hcs, byteSize_append, ← ha.offset] at hs
  exact ⟨hcs ▸ hf.delivered, hs⟩

/-- **Wherever a reader stands, it has looked no further than at the next character.** -/
theorem looks_of_along (hd : r.DrawnFrom f) (ha : r.Along f.chars past) :
    f.Looks r.feed r.offset := by
  obtain ⟨ps, hps⟩ := exists_requests hd
  cases hl : r.leftover with
  | none =>
    obtain ⟨hdel, hs⟩ := size_of_reading hd ha hl
    by_cases hslot : ∃ c, r.slot = .putBack c
    · obtain ⟨c, hslot⟩ := hslot
      rw [hslot] at hdel hs
      refine .inr ⟨_, .char c ?_, ?_⟩
      · rw [hdel, Utf8.encode_append, List.append_assoc, ha.offset, ← Utf8.length_encode,
          List.drop_left]
        exact ⟨r.feed.delivered, by simp [Slot.ahead]⟩
      · rw [Feed.yields_iff hps, String.length_utf8EncodeChar]
        exact hs
    · have hnil : r.slot.ahead = [] := by
        cases hc : r.slot with
        | putBack c => exact absurd ⟨c, hc⟩ hslot
        | empty => rfl
        | taken c => rfl
      rw [hnil] at hs
      exact .inl ((Feed.yields_iff hps).2 hs)
  | some bs =>
    obtain ⟨-, cs, g, e, hf, hg⟩ := hd.ended bs hl
    -- all characters have been handed out
    have hcs : past = cs := by
      have hc := ha.chars
      rw [ahead_of_leftover hd (by simp [hl]), hf.chars, Feed.chars_of_ended hg, List.append_nil,
        List.append_nil] at hc
      exact hc.symm
    have hoff : r.offset = (Utf8.encode cs).length := by rw [ha.offset, hcs, Utf8.length_encode]
    obtain ⟨next, hseek, hsize⟩ := Feed.seeks_of_ended hg
    have hs := hf.size
    refine .inr ⟨next, ?_, ?_⟩
    · rw [hf.delivered, hoff, List.drop_left]
      exact hseek
    · rw [Feed.yields_iff hps, hoff, Utf8.length_encode]
      omega

/-- **With a character just handed out, nothing has been looked at.** -/
theorem yields_of_taken {c : Char} (hd : r.DrawnFrom f) (ha : r.Along f.chars past)
    (hs : r.slot = .taken c) : f.Within r.feed ∧ f.Yields r.feed r.offset := by
  have hl : r.leftover = none := by
    by_contra hl
    obtain ⟨bs, hb⟩ := Option.ne_none_iff_exists'.1 hl
    rw [(hd.ended bs hb).1] at hs
    cases hs
  obtain ⟨ps, hps⟩ := exists_requests hd
  have hsize := (size_of_reading hd ha hl).2
  rw [hs] at hsize
  exact ⟨(within_of_reading hd hl).1, (Feed.yields_iff hps).2 hsize⟩

end Reader

/-! ### Parens -/

namespace View

variable {v : View} {m : Mode} {t : Token}

/-- A step that makes no paren. -/
def Parenless (o : Step × View) : Prop :=
  ∀ t, o.1.token = some t → t.kind ≠ .openParen ∧ t.kind ≠ .closeParen

theorem parenless_goto (v : View) (m : Mode) : Parenless (v.goto m) := by
  intro t ht
  cases ht

theorem parenless_fail (v : View) (e : LexError) : Parenless (v.fail e) := by
  intro t ht
  obtain rfl := Option.some.inj ht
  simp [Token.error]

theorem parenless_run {p : Char → Bool} {k : List Char → Kind} (v : View) (n : Mode)
    (hk : ∀ cs, k cs ≠ .openParen ∧ k cs ≠ .closeParen) : Parenless (v.run p k n) := by
  unfold run
  split
  · exact parenless_fail v _
  · intro t ht
    obtain rfl := Option.some.inj ht
    exact hk _

theorem parenless_word (v : View) (n : Mode) : Parenless (v.run isWordChar .ofWord n) := by
  apply parenless_run
  intro cs
  rcases Kind.ofWord_cases cs with h | h | h | h <;> simp [h]

/-- **Parens are made from their own modes alone.** -/
theorem parenless_step (v : View) (ho : m ≠ .openParen) (hc : m ≠ .closeParen) :
    Parenless (v.step m) := by
  cases m with
  | text =>
    simp only [step]
    split
    · split
      · intro t ht
        cases ht
      · exact parenless_fail v _
    · split
      · exact parenless_goto v _
      · exact parenless_goto v _
      · exact parenless_goto v _
      · exact parenless_fail v _
  | openParen => exact absurd rfl ho
  | insideParen =>
    simp only [step]
    split_ifs
    · exact parenless_goto v _
    · split
      · exact parenless_fail v _
      · split_ifs
        · exact parenless_goto v _
        · exact parenless_goto v _
        · split
          · exact parenless_goto v _
          · exact parenless_goto v _
          · exact parenless_goto v _
          · exact parenless_goto v _
          · exact parenless_fail v _
  | identifier => exact parenless_word v _
  | number =>
    simp only [step]
    split
    · exact parenless_word v _
    · exact parenless_fail v _
  | closeParen => exact absurd rfl hc
  | whitespace => exact parenless_run v _ (by simp)
  | comment =>
    simp only [step]
    split
    · exact parenless_run v _ (by simp)
    · exact parenless_fail v _

end View

namespace Lexer

variable {l k : Lexer} {m : Mode} {t : Token} {c : Char}

theorem slot_of_accept (h : l.accept c = (true, k)) : k.reader.slot = .taken c := by
  have hs := l.reader.slot_next
  unfold accept at h
  split at h
  · next d r hr =>
    rw [hr] at hs
    split at h
    · next hd =>
      obtain ⟨-, rfl⟩ := Prod.mk.inj h
      rw [← hd]
      exact hs
    · cases h
  · cases h

theorem kind_unexpected (ht : l.unexpected.1.token = some t) : t.kind = .error := by
  unfold unexpected at ht
  split at ht
  · obtain rfl := Option.some.inj ht
    rfl
  · obtain rfl := Option.some.inj ht
    rfl

/-- An opening paren is the character handed out last. -/
theorem slot_openParen (ht : l.openParen.1.token = some t) (hk : t.kind ≠ .error) :
    l.openParen.2.reader.slot = .taken '(' := by
  unfold openParen at ht ⊢
  split
  · next k ha =>
    rw [ha] at ht
    dsimp only at ht ⊢
    split
    · have hslot := slot_of_accept ha
      exact hslot
    · next hd =>
      rw [if_neg hd] at ht
      cases ht
  · next k ha =>
    rw [ha] at ht
    exact absurd (kind_unexpected ht) hk

/-- So is a closing one. -/
theorem slot_closeParen (ht : l.closeParen.1.token = some t) (hk : t.kind ≠ .error) :
    l.closeParen.2.reader.slot = .taken ')' := by
  unfold closeParen at ht ⊢
  split
  · next hd =>
    rw [if_pos hd] at ht
    obtain rfl := Option.some.inj ht
    exact absurd rfl hk
  · next hd =>
    rw [if_neg hd] at ht
    split
    · next k ha =>
      have hslot := slot_of_accept ha
      exact hslot
    · next k ha =>
      rw [ha] at ht
      exact absurd (kind_unexpected ht) hk

/-- **After a paren nothing is looked at**, for it is the character handed out last. -/
theorem slot_of_paren (ht : (l.step m).1.token = some t)
    (hk : t.kind = .openParen ∨ t.kind = .closeParen) : ∃ c, (l.step m).2.reader.slot = .taken c := by
  have herr : t.kind ≠ .error := by
    rcases hk with hk | hk <;> simp [hk]
  by_cases ho : m = .openParen
  · subst ho
    exact ⟨'(', slot_openParen ht herr⟩
  by_cases hc : m = .closeParen
  · subst hc
    exact ⟨')', slot_closeParen ht herr⟩
  · have hnone := l.view.parenless_step ho hc
    rw [← l.step_view m] at hnone
    obtain ⟨h1, h2⟩ := hnone t ht
    exact absurd hk (not_or.2 ⟨h1, h2⟩)

end Lexer

/-! ### Offers -/

namespace Scan

variable {f : Feed} {ts : List Token} {s : Scan} {m : Mode} {t : Token}

/-- **Where the reader stands when a step has made a token**: at its end, or at an error. -/
theorem Open.offset_step (h : s.Open f ts) (hs : s.stage = .running m)
    (ht : (s.lexer.step m).1.token = some t) :
    (t.kind = .error ∧ (s.lexer.step m).2.reader.offset = t.position.offset) ∨
      (t.Inner ∧ (s.lexer.step m).2.reader.offset =
        t.position.offset + t.text.utf8ByteSize) := by
  have hmark : s.lexer.mark.offset = s.lexer.reader.offset := by
    rw [h.mark_eq_here]
    rfl
  have ho := s.lexer.outcome_step m
  have hfault := h.no_fault hs
  generalize s.lexer.step m = x at ho ht hfault ⊢
  cases ho with
  | choose => cases ht
  | fail e k hv =>
    obtain rfl := Option.some.inj ht
    have hoff : k.reader.offset = s.lexer.reader.offset := congrArg (·.here.offset) hv
    exact .inl ⟨rfl, hoff.trans hmark.symm⟩
  | exhausted => cases ht
  | take p n k hp hv =>
    obtain rfl := Option.some.inj ht
    have hplain := Piece.plain_of_shaped hp.whole.shaped
    refine .inr ⟨⟨hplain.error, hplain.eof⟩, ?_⟩
    have hoff : k.reader.offset = (s.lexer.here.advance p.text).offset := congrArg (·.here.offset) hv
    rw [hoff, Place.offset_advance, ← Utf8.byteSize_toList, String.toList_ofList]
    exact congrArg (· + byteSize p.text) hmark.symm
  | fault => exact absurd rfl (hfault _)

/-- The reader of an open scan has looked no further than at the next character. -/
theorem Open.looks (h : s.Open f ts) : f.Looks s.lexer.reader.feed s.lexer.reader.offset := by
  obtain ⟨past, halong⟩ := Lexer.along_of_reached h.reached
  exact Reader.looks_of_along h.drawn halong

end Scan

namespace Round

variable {σ : Type} {sink : Sink σ} {r : Round σ} {f : Feed} {t : Token}

/-- The token at the end of the input is offered where the reader stands. -/
theorem eof_of_stopped {x : Halt} (hs : r.scan.stage = .stopped x)
    (ht : (r.turn sink).offer = some t) : t = r.scan.lexer.eofToken ∧
      (r.turn sink).next.lexer.reader.feed = r.scan.lexer.reader.feed := by
  have hoff : (r.turn sink).offer.toList = _ := offer_stopped hs
  rw [ht] at hoff
  refine ⟨?_, by rw [turn_stopped hs]; rfl⟩
  split at hoff
  · exact (List.cons.inj hoff).1
  · cases hoff

/-- A scan that is over offers nothing. -/
theorem over?_of_offer (ht : (r.turn sink).offer = some t) : r.scan.over? = none := by
  rcases hs : r.scan.stage with m | x | x
  · simp [Scan.over?, hs]
  · simp [Scan.over?, hs]
  · have hnone : (r.turn sink).offer = none := by simp [turn, Scan.turn, hs]
    rw [hnone] at ht
    cases ht

/-- **When a token is offered**, the reader has looked no further than at the character after it, and
if it is a paren, not even there. -/
theorem looks_of_offer (h : r.scan.Open f r.emitted) (ht : (r.turn sink).offer = some t) :
    let g := (r.turn sink).next.lexer.reader.feed
    ∃ n, f.Looks g n ∧ (t.Inner → n = t.position.offset + t.text.utf8ByteSize) ∧
      (¬ t.Inner → n = t.position.offset) ∧
      (t.kind = .openParen ∨ t.kind = .closeParen → f.Within g ∧ f.Yields g n) := by
  intro g
  rcases hs : r.scan.stage with m | x | x
  · cases ha : r.asked sink with
    | true =>
      rw [turn_asked hs ha] at ht
      cases ht
    | false =>
      obtain ⟨hoff, hnext⟩ := turn_unasked hs ha
      rw [hoff] at ht
      have hafter := h.step hs
      have hg : g = (r.scan.lexer.step m).2.reader.feed := by
        show (r.turn sink).next.lexer.reader.feed = _
        rw [hnext]
      rw [hg]
      refine ⟨_, hafter.looks, ?_, ?_, ?_⟩
      · intro hin
        rcases h.offset_step hs ht with ⟨hk, -⟩ | ⟨-, hn⟩
        · exact absurd hk hin.1
        · exact hn
      · intro hin
        rcases h.offset_step hs ht with ⟨-, hn⟩ | ⟨hk, -⟩
        · exact hn
        · exact absurd hk hin
      · intro hk
        obtain ⟨c, hc⟩ := Lexer.slot_of_paren ht hk
        obtain ⟨past, halong⟩ := Lexer.along_of_reached hafter.reached
        exact Reader.yields_of_taken hafter.drawn halong hc
  · obtain ⟨rfl, hg⟩ := eof_of_stopped hs ht
    have hg : g = r.scan.lexer.reader.feed := hg
    rw [hg]
    refine ⟨_, h.looks, fun hin => absurd rfl hin.2, fun _ => rfl, ?_⟩
    rintro (hk | hk) <;> cases hk
  · have hover := over?_of_offer ht
    simp [Scan.over?, hs] at hover

end Round

/-- **No byte is asked for before it has to be.** Whenever a run offers a token, so many bytes have
been asked for: those up to the end of a paren, each answered and no other request made; those up to
the end of another piece of the text, or up to where an error or the end of the input stands, and no
more than it takes to know the character there, four bytes at most. -/
theorem demand_of_offered {σ : Type} {f : Feed} (h : f.delivered.length ≤ counterMax)
    (settings : Settings) (sink : Sink σ) (st : σ) {r : Round σ} {t : Token}
    (hr : (Round.start st (Scan.ofFeed f settings)).Reaches sink r)
    (ht : (r.turn sink).offer = some t) :
    let g := (r.turn sink).next.lexer.reader.feed
    let start := t.position.offset
    let stop := start + t.text.utf8ByteSize
    ∃ asked, f.Yields g asked ∧
      (t.kind = .openParen ∨ t.kind = .closeParen → f.Within g ∧ asked = stop) ∧
      (t.kind ≠ .error → t.kind ≠ .eof → f.Looks g stop ∧ asked ≤ stop + 4) ∧
      (t.kind = .error ∨ t.kind = .eof → f.Looks g start ∧ asked ≤ start + 4) := by
  intro g start stop
  have ho := Round.over?_of_offer ht
  obtain ⟨n, hlooks, hin, hout, hparen⟩ := Round.looks_of_offer (Round.open_of_reaches h hr ho) ht
  obtain ⟨asked, hasked⟩ := hlooks.exists_yields
  have hle := hlooks.le hasked
  refine ⟨asked, hasked, ?_, ?_, ?_⟩
  · intro hk
    obtain ⟨hw, hy⟩ := hparen hk
    have hinner : t.Inner := by
      rcases hk with hk | hk <;> simp [Token.Inner, hk]
    refine ⟨hw, ?_⟩
    rw [hasked.unique hy, hin hinner]
  · intro herr heof
    obtain rfl := hin ⟨herr, heof⟩
    exact ⟨hlooks, hle⟩
  · intro hk
    obtain rfl := hout fun hinner => hk.elim hinner.1 hinner.2
    exact ⟨hlooks, hle⟩

/-- Bytes that make no character after a word, with a stray one that is asked for in their place: the
paren is offered with one byte asked for, and the word with no more than six. -/
theorem demand_of_offered_stray :
    let f := Feed.ofItems [.bytes [0x28, 0x61, 0xF0, 0x9F], .bytes [0x98, 0x29, 0x29]]
    let first := Round.start #[] (Scan.ofFeed f .default)
    f.delivered.length ≤ counterMax ∧
    (∃ r, first.Reaches Sink.keeping r ∧
      (r.turn Sink.keeping).offer = some ⟨.openParen, "(", .start⟩ ∧
      f.Within (r.turn Sink.keeping).next.lexer.reader.feed ∧
      f.Yields (r.turn Sink.keeping).next.lexer.reader.feed 1) ∧
    ∃ r asked, first.Reaches Sink.keeping r ∧
      (r.turn Sink.keeping).offer = some ⟨.identifier, "a", ⟨1, 1, 1⟩⟩ ∧
      f.Yields (r.turn Sink.keeping).next.lexer.reader.feed asked ∧ asked ≤ 2 + 4 := by
  intro f first
  have h : f.delivered.length ≤ counterMax := by decide
  have hparen : ⟨.openParen, "(", .start⟩ ∈
      ((Scan.ofFeed f .default).run Sink.keeping #[]).offered := by decide +kernel
  have hword : ⟨.identifier, "a", ⟨1, 1, 1⟩⟩ ∈
      ((Scan.ofFeed f .default).run Sink.keeping #[]).offered := by decide +kernel
  obtain ⟨r, hr, ht⟩ := Round.exists_round_of_offered hparen
  obtain ⟨k, hk, hu⟩ := Round.exists_round_of_offered hword
  obtain ⟨n, hn, h1, -⟩ := demand_of_offered h .default Sink.keeping #[] hr ht
  obtain ⟨i, hi, -, h2, -⟩ := demand_of_offered h .default Sink.keeping #[] hk hu
  obtain ⟨hw, rfl⟩ := h1 (.inl rfl)
  exact ⟨h, ⟨r, hr, ht, hw, hn⟩, k, i, hk, hu, hi, (h2 (by simp) (by simp)).2⟩

end ParenLex
