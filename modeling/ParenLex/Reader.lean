import ParenLex.Feed

/-!
# Characters from a feed

A reader hands out the characters of a feed one by one, counts the bytes of those handed out, and
takes back the last one. Where the feed yields no further character the input has ended, for good:
the bytes that did not make a character and the failure that was met stay with the reader.

* `size_next`: a character handed out leaves its bytes fewer to come, and the end leaves no more.
* `size_peek_le`: looking ahead adds nothing to what is to come.
* `size_takeWhile`: a run of characters leaves its bytes fewer to come.
-/

namespace ParenLex

/-- The place for one character: the one handed out last, or the one taken back. -/
inductive Slot
  | empty
  | taken (c : Char)
  | putBack (c : Char)
  deriving DecidableEq

/-- The bytes of the character that was taken back. -/
def Slot.size : Slot → Nat
  | putBack c => c.utf8Size
  | _ => 0

/-- A failed read, with the bytes handed out before the character it struck. -/
structure ReadFailure where
  offset : Nat
  error : ReadError
  deriving DecidableEq

/-- A reader of a feed. `offset` counts the bytes of the characters handed out and not taken back;
`leftover` is set at the end, to the bytes that made no character. -/
structure Reader where
  feed : Feed
  slot : Slot
  offset : Nat
  leftover : Option (List UInt8)
  failure : Option ReadFailure
  deriving DecidableEq

namespace Reader

def ofFeed (f : Feed) : Reader := ⟨f, .empty, 0, none, none⟩

/-- The bytes at the end of the input that made no character. -/
def undecoded? (r : Reader) : Option (List UInt8) := r.leftover.filter (· ≠ [])

/-- Asks the feed for a character, unless the input has ended. -/
def fetch (r : Reader) : Option Char × Reader :=
  match r.leftover with
  | some _ => (none, { r with slot := .empty })
  | none =>
    match r.feed.fetch with
    | (.char c, f) =>
      (some c, { r with feed := f, slot := .taken c, offset := r.offset + c.utf8Size })
    | (.ended bytes e, f) =>
      (none, { r with
        feed := f
        slot := .empty
        leftover := some bytes
        failure := (e.map (⟨r.offset, ·⟩)).or r.failure })

/-- Hands out the next character: the one taken back, or a fresh one. -/
def next (r : Reader) : Option Char × Reader :=
  match r.slot with
  | .putBack c => (some c, { r with slot := .taken c, offset := r.offset + c.utf8Size })
  | _ => r.fetch

/-- Takes back the character handed out last. With none to take back, nothing happens. -/
def backup (r : Reader) : Reader :=
  match r.slot with
  | .taken c => { r with slot := .putBack c, offset := r.offset - c.utf8Size }
  | _ => r

/-- The next character, left where it is. -/
def peek (r : Reader) : Option Char × Reader := (r.next.1, r.next.2.backup)

/-- The recorded failure, handed over once. -/
def takeFailure (r : Reader) : Option ReadError × Reader :=
  (r.failure.map (·.error), { r with failure := none })

/-- The bytes still to come. -/
def size (r : Reader) : Nat := r.feed.size + r.slot.size

/-- The bytes of the character an answer holds. -/
def charSize (c : Option Char) : Nat := (c.map Char.utf8Size).getD 0

theorem size_fetch (r : Reader) : r.fetch.2.size + charSize r.fetch.1 ≤ r.feed.size := by
  unfold fetch
  split
  · simp [size, Slot.size, charSize]
  · split
    · next c f h =>
      have := Feed.size_of_fetch_char h
      simpa [size, Slot.size, charSize] using this
    · next bytes e f h =>
      have := r.feed.size_fetch_le
      rw [h] at this
      simpa [size, Slot.size, charSize] using this

theorem size_next (r : Reader) : r.next.2.size + charSize r.next.1 ≤ r.size := by
  unfold next
  split
  · next c h => simp [size, Slot.size, charSize, h]
  · have := r.size_fetch
    simp only [size] at this ⊢; omega

theorem size_of_next {r k : Reader} {c : Char} (h : r.next = (some c, k)) : k.size < r.size := by
  have h1 := r.size_next
  have h2 := c.utf8Size_pos
  simp [h, charSize] at h1; omega

/-- A character just handed out is the one in the slot. -/
theorem slot_next (r : Reader) :
    r.next.2.slot = match r.next.1 with | some c => .taken c | none => .empty := by
  unfold next fetch
  split
  · rfl
  · split
    · rfl
    · split <;> rfl

theorem size_backup_next (r : Reader) : r.next.2.backup.size ≤ r.size := by
  have h1 := r.size_next
  have h2 := r.slot_next
  unfold backup
  split
  · next c h =>
    rw [h] at h2
    cases hc : r.next.1 with
    | none => simp [hc] at h2
    | some d =>
      obtain rfl : c = d := by simpa [hc] using h2
      simp [hc, charSize, size, h, Slot.size] at h1 ⊢; omega
  · omega

theorem size_peek_le (r : Reader) : r.peek.2.size ≤ r.size := r.size_backup_next

/-- Hands out characters while they satisfy `p`, after those in `acc`, the last of which comes
first. -/
def takeWhileOnto (p : Char → Bool) (acc : List Char) (r : Reader) : List Char × Reader :=
  match _h : r.next with
  | (some c, k) => if p c then takeWhileOnto p (c :: acc) k else (acc.reverse, k.backup)
  | (none, k) => (acc.reverse, k)
termination_by r.size
decreasing_by exact size_of_next (by assumption)

/-- Hands out the longest run of characters that satisfy `p`. -/
def takeWhile (p : Char → Bool) (r : Reader) : List Char × Reader := takeWhileOnto p [] r

theorem size_takeWhileOnto (p : Char → Bool) (acc : List Char) (r : Reader) :
    (takeWhileOnto p acc r).2.size + (takeWhileOnto p acc r).1.length ≤ r.size + acc.length := by
  fun_induction takeWhileOnto p acc r with
  | case1 acc r c k h hp ih =>
    have := size_of_next h
    simp at ih; omega
  | case2 acc r c k h hp =>
    have := r.size_backup_next
    simp [h] at this ⊢; omega
  | case3 acc r k h =>
    have := r.size_next
    simp [h, charSize] at this ⊢; omega

theorem size_takeWhile (p : Char → Bool) (r : Reader) :
    (r.takeWhile p).2.size + (r.takeWhile p).1.length ≤ r.size :=
  size_takeWhileOnto p [] r

end Reader

end ParenLex
