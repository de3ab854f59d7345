import ParenLex.Proofs.Counters
import ParenLex.Proofs.Decoding

/-!
# A reader is an index

Whatever is done with a reader, it stands at an index into the characters of its feed, and all that
it keeps beside is whether the last of them may be taken back. So it hands out what comes at the
index, and nothing that is done loses a character, repeats one or changes their order.

* `next_at`, `backup_at`, `peek_at`: each operation takes the reader where it takes the index.
* `at_after`: so do operations one after another.
* `index_exact`: what the reader of a feed answers after any of them.
-/

namespace ParenLex

namespace Reader

/-- What may be done with a reader. -/
inductive Op
  | next | peek | backup | takeFailure
  deriving DecidableEq

/-- The reader after an operation. -/
def apply (r : Reader) : Op → Reader
  | .next => r.next.2
  | .peek => r.peek.2
  | .backup => r.backup
  | .takeFailure => r.takeFailure.2

/-- The reader after operations, one after another. -/
def after (r : Reader) (ops : List Op) : Reader := ops.foldl apply r

/-- An index into characters: how many are behind it, and whether the last of these may be taken
back. -/
structure Index where
  passed : Nat
  armed : Bool
  deriving DecidableEq

namespace Index

def start : Index := ⟨0, false⟩

/-- What an operation makes of an index into `m` characters. -/
def apply (m : Nat) (x : Index) : Op → Index
  | .next => if x.passed < m then ⟨x.passed + 1, true⟩ else ⟨x.passed, false⟩
  | .peek => ⟨x.passed, false⟩
  | .backup => if x.armed then ⟨x.passed - 1, false⟩ else x
  | .takeFailure => x

def after (m : Nat) (x : Index) (ops : List Op) : Index := ops.foldl (apply m) x

variable {m : Nat} {x : Index}

theorem apply_next_of_lt (h : x.passed < m) : x.apply m .next = ⟨x.passed + 1, true⟩ := if_pos h

theorem apply_next_of_not_lt (h : ¬ x.passed < m) : x.apply m .next = ⟨x.passed, false⟩ :=
  if_neg h

theorem apply_backup_of_armed (h : x.armed = true) :
    x.apply m .backup = ⟨x.passed - 1, false⟩ := if_pos h

theorem apply_backup_of_not_armed (h : ¬ x.armed = true) : x.apply m .backup = x := if_neg h

/-- To look ahead is to go on and back. -/
theorem apply_peek (m : Nat) (x : Index) :
    x.apply m .peek = (x.apply m .next).apply m .backup := by
  by_cases h : x.passed < m
  · rw [apply_next_of_lt h, apply_backup_of_armed rfl]
    rfl
  · rw [apply_next_of_not_lt h, apply_backup_of_not_armed (by simp)]
    rfl

end Index

/-- The characters handed out and not taken back, after those of `past`. -/
def handed (past : List Char) (r : Reader) : List Op → List Char
  | [] => past
  | .next :: ops => handed (past ++ r.next.1.toList) (r.apply .next) ops
  | .backup :: ops =>
    match r.slot with
    | .taken _ => handed past.dropLast (r.apply .backup) ops
    | _ => handed past (r.apply .backup) ops
  | op :: ops => handed past (r.apply op) ops

/-- **The reader stands at an index into characters**: those before it are behind, and the last of
them may be taken back where the index says so. -/
structure At (r : Reader) (cs : List Char) (x : Index) : Prop where
  along : r.Along cs (cs.take x.passed)
  le : x.passed ≤ cs.length
  armed : x.armed = true ↔ ∃ c, r.slot = .taken c

variable {r : Reader} {cs : List Char} {x : Index} {f : Feed}

theorem at_ofFeed (f : Feed) : (ofFeed f).At f.chars .start :=
  ⟨along_ofFeed f, Nat.zero_le _, by simp [Index.start, ofFeed]⟩

/-- What is ahead of the reader is what comes at the index. -/
theorem At.ahead (h : r.At cs x) : r.ahead = cs.drop x.passed := by
  have hsplit := List.take_append_drop x.passed cs
  exact List.append_cancel_left (h.along.chars.symm.trans hsplit.symm)

/-- **The next character is the one at the index**, and moves it on. -/
theorem next_at (h : r.At cs x) :
    r.next.1 = cs[x.passed]? ∧ (r.apply .next).At cs (x.apply cs.length .next) := by
  have hahead := h.ahead
  have hslot := r.slot_next
  rw [apply]
  by_cases hlt : x.passed < cs.length
  · rw [List.drop_eq_getElem_cons hlt] at hahead
    obtain ⟨k, hk, hb, -⟩ := next_cons ⟨hahead, rfl, rfl⟩
    rw [hk] at hslot ⊢
    rw [Index.apply_next_of_lt hlt]
    have htake : cs.take (x.passed + 1) = cs.take x.passed ++ [cs[x.passed]] :=
      List.take_succ_eq_append_getElem hlt
    refine ⟨(List.getElem?_eq_getElem hlt).symm, ⟨?_, ?_, ?_⟩, hlt, ?_⟩
    · rw [hb.ahead, List.take_append_drop]
    · rw [hb.offset, h.along.offset]
      show _ = byteSize (cs.take (x.passed + 1))
      rw [htake, byteSize_append, byteSize_cons, byteSize_nil, Nat.add_zero]
    · intro c hc
      obtain rfl := Slot.taken.inj (hslot.symm.trans hc)
      show (cs.take (x.passed + 1)).getLast? = _
      rw [htake, List.getLast?_concat]
    · exact iff_of_true rfl ⟨_, hslot⟩
  · rw [List.drop_eq_nil_of_le (Nat.le_of_not_lt hlt)] at hahead
    obtain ⟨k, hk, hb, -⟩ := next_nil ⟨hahead, rfl, rfl⟩
    rw [hk] at hslot ⊢
    rw [Index.apply_next_of_not_lt hlt]
    have hempty : k.slot = .empty := hslot
    refine ⟨(List.getElem?_eq_none (Nat.le_of_not_lt hlt)).symm, ⟨?_, ?_, ?_⟩, h.le, ?_⟩
    · rw [hb.ahead, ← hahead]
      exact h.along.chars
    · exact hb.offset.trans h.along.offset
    · intro c hc
      rw [hempty] at hc
      cases hc
    · simp [hempty]

/-- **Taking back moves the index back**, where it may. -/
theorem backup_at (h : r.At cs x) : (r.apply .backup).At cs (x.apply cs.length .backup) := by
  rw [apply]
  by_cases ha : x.armed = true
  · obtain ⟨c, hc⟩ := h.armed.1 ha
    have hlast := h.along.taken c hc
    -- the character taken back is the last one behind the index
    have hpos : 0 < x.passed := by
      by_contra hn
      rw [Nat.eq_zero_of_not_pos hn] at hlast
      cases hlast
    have hle := h.le
    have hchar : cs[x.passed - 1]? = some c := by
      rw [List.getLast?_take, if_neg (by omega)] at hlast
      rw [List.getElem?_eq_getElem (by omega)] at hlast ⊢
      exact hlast
    have htake : cs.take x.passed = cs.take (x.passed - 1) ++ [c] := by
      conv_lhs => rw [show x.passed = x.passed - 1 + 1 by omega]
      rw [List.take_add_one, hchar]
      rfl
    have ho : r.offset = byteSize (cs.take (x.passed - 1)) + c.utf8Size := by
      rw [h.along.offset, htake]
      simp
    have hb := backup_before ⟨rfl, rfl, ho⟩ hc
    have hslot : r.backup.slot = .putBack c := by simp [backup, hc]
    rw [Index.apply_backup_of_armed ha]
    refine ⟨⟨?_, hb.offset, ?_⟩, ?_, ?_⟩
    · rw [hb.ahead]
      have hchars := h.along.chars
      rw [htake, List.append_assoc] at hchars
      exact hchars
    · intro d hd
      rw [hslot] at hd
      cases hd
    · show x.passed - 1 ≤ cs.length
      omega
    · simp [hslot]
  · have hb : r.backup = r := by
      unfold backup
      split
      · next c hc => exact absurd (h.armed.2 ⟨c, hc⟩) ha
      · rfl
    rw [Index.apply_backup_of_not_armed ha, hb]
    exact h

/-- **Looking ahead leaves the index where it is**, and nothing to take back. -/
theorem peek_at (h : r.At cs x) :
    r.peek.1 = cs[x.passed]? ∧ (r.apply .peek).At cs (x.apply cs.length .peek) := by
  obtain ⟨hc, hn⟩ := next_at h
  refine ⟨hc, ?_⟩
  rw [Index.apply_peek]
  exact backup_at hn

/-- Handing over the failure moves nothing. -/
theorem takeFailure_at (h : r.At cs x) : (r.apply .takeFailure).At cs x :=
  ⟨⟨h.along.chars, h.along.offset, h.along.taken⟩, h.le, h.armed⟩

theorem at_apply (h : r.At cs x) (op : Op) : (r.apply op).At cs (x.apply cs.length op) := by
  cases op with
  | next => exact (next_at h).2
  | peek => exact (peek_at h).2
  | backup => exact backup_at h
  | takeFailure => exact takeFailure_at h

/-- **Operations one after another take the reader where they take the index.** -/
theorem at_after (h : r.At cs x) (ops : List Op) :
    (r.after ops).At cs (x.after cs.length ops) := by
  induction ops generalizing r x with
  | nil => exact h
  | cons op ops ih => exact ih (at_apply h op)

/-- **What has been handed out and not taken back are the characters before the index.** -/
theorem handed_at (h : r.At cs x) (ops : List Op) :
    r.handed (cs.take x.passed) ops = cs.take (x.after cs.length ops).passed := by
  induction ops generalizing r x with
  | nil => rfl
  | cons op ops ih =>
    have hnext := ih (at_apply h op)
    rw [Index.after, List.foldl_cons, ← Index.after, ← hnext]
    cases op with
    | next =>
      obtain ⟨hc, -⟩ := next_at h
      have htake : cs.take x.passed ++ r.next.1.toList =
          cs.take (x.apply cs.length .next).passed := by
        rw [hc, ← List.take_add_one]
        by_cases hlt : x.passed < cs.length
        · rw [Index.apply_next_of_lt hlt]
        · rw [Index.apply_next_of_not_lt hlt, List.take_of_length_le (by omega),
            List.take_of_length_le (Nat.le_of_not_lt hlt)]
      rw [handed, htake]
    | peek => rfl
    | backup =>
      rw [handed]
      split
      · next c hc =>
        have ha := h.armed.2 ⟨c, hc⟩
        have htake : (cs.take x.passed).dropLast =
            cs.take (x.apply cs.length .backup).passed := by
          have hle := h.le
          rw [List.dropLast_eq_take, List.take_take, List.length_take,
            Index.apply_backup_of_armed ha]
          show cs.take _ = cs.take (x.passed - 1)
          congr 1
          omega
        rw [htake]
      · next hn =>
        have ha : ¬ x.armed = true := by
          intro ha
          obtain ⟨c, hc⟩ := h.armed.1 ha
          exact hn c hc
        rw [Index.apply_backup_of_not_armed ha]
    | takeFailure => rfl

/-- A character taken back is the one at the index. -/
theorem putBack_at (h : r.At cs x) {c : Char} (hs : r.slot = .putBack c) :
    cs[x.passed]? = some c := by
  have hahead := h.ahead
  rw [Reader.ahead, hs] at hahead
  rw [← List.head?_drop, ← hahead]
  rfl

/-- **A reader is an index into the characters at the head of its bytes.** After any operations the
character at the index is the next one and the one seen by looking ahead, and the offset is the size
of those before it, which are the ones handed out and not taken back. A character that waits to be
handed out again is the one at the index. No offset passes the counters or is taken below zero. -/
theorem index_exact (hf : f.delivered.length ≤ counterMax) :
    ∃ cs rest, f.delivered = Utf8.encode cs ++ rest ∧
      (∀ bs tail, Utf8.WellFormed bs → rest ≠ bs ++ tail) ∧
      ∀ ops,
        let r := (ofFeed f).after ops
        let x := Index.start.after cs.length ops
        r.next.1 = cs[x.passed]? ∧ r.peek.1 = cs[x.passed]? ∧
          r.offset = (Utf8.encode (cs.take x.passed)).length ∧
          (ofFeed f).handed [] ops = cs.take x.passed ∧
          (∀ c, r.slot = .putBack c → cs[x.passed]? = some c) ∧ r.InRange := by
  obtain ⟨rest, hd, hrest⟩ := f.delivered_eq_append
  refine ⟨f.chars, rest, hd, ?_, ?_⟩
  · intro bs tail hbs
    obtain ⟨c, rfl⟩ := Utf8.wellFormed_iff.1 hbs
    exact hrest c tail
  · intro ops r x
    have h : r.At f.chars x := at_after (at_ofFeed f) ops
    refine ⟨(next_at h).1, (peek_at h).1, ?_, ?_, ?_, ?_⟩
    · rw [Utf8.length_encode]
      exact h.along.offset
    · exact handed_at (at_ofFeed f) ops
    · intro c hc
      exact putBack_at h hc
    · exact inRange_of_along h.along hf

/-- Two characters, the second taken back twice over and looked at, and then the end. -/
theorem index_exact_backup :
    let f := Feed.ofItems [.bytes [0x61, 0xC3], .bytes [0xA9, 0xFF]]
    let r := (ofFeed f).after [.next, .next, .backup, .backup, .peek, .backup, .next, .next, .backup]
    f.delivered.length ≤ counterMax ∧ r.next.1 = none ∧ r.offset = 3 ∧
      (ofFeed f).handed [] [.next, .next, .backup, .backup, .peek] = ['a'] ∧ r.InRange := by
  intro f r
  have hf : f.delivered.length ≤ counterMax := by decide
  obtain ⟨cs, rest, hd, hrest, h⟩ := index_exact hf
  have hcs : cs = ['a', 'é'] := by
    have hchars := (Feed.chars_of_append hd fun c tail => hrest _ tail (Utf8.wellFormed_encodeChar c)).1
    rw [← hchars]
    decide +kernel
  subst hcs
  obtain ⟨h1, -, h2, -, -, h3⟩ := h [.next, .next, .backup, .backup, .peek, .backup, .next, .next,
    .backup]
  obtain ⟨-, -, -, h4, -⟩ := h [.next, .next, .backup, .backup, .peek]
  exact ⟨hf, h1, h2, h4, h3⟩

end Reader

end ParenLex
