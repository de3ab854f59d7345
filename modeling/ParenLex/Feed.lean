import ParenLex.Utf8

/-!
# Byte feeds

A feed is a script of what its reads deliver: bytes, failures and requests to stop. Nothing of it
is taken before a byte is asked for, so a request takes effect when the reading passes it.

* `size_pull`: the bytes delivered and the bytes left are the bytes that were there.
* `size_of_fetch_char`: a delivered character costs at least the bytes of its encoding.
-/

namespace ParenLex

/-- Why a read failed; `interrupted` asks for another try. -/
inductive ErrorKind
  | interrupted | other | unexpectedEof | connectionReset | wouldBlock | timedOut | invalidData
  | brokenPipe
  deriving DecidableEq

structure ReadError where
  kind : ErrorKind
  message : String
  deriving DecidableEq

namespace Feed

/-- One entry of a feed's script. A read that delivers no bytes is an end of input. -/
inductive Item
  | bytes (bs : List UInt8)
  | failure (e : ReadError)
  | stop
  deriving DecidableEq

def Item.size : Item → Nat
  | .bytes bs => bs.length
  | _ => 0

/-- The answer to a request for a byte. -/
inductive Pull
  | byte (b : UInt8)
  | ended
  | failed (e : ReadError)
  deriving DecidableEq

/-- The answer to a request for a character: the character, or the bytes read of a character that
did not come to be (none at a clean end) with the failure met on the way. -/
inductive Fetch
  | char (c : Char)
  | ended (bytes : List UInt8) (failure : Option ReadError)
  deriving DecidableEq

end Feed

/-- A byte source: the bytes of the current read not yet asked for, the script still to come, and
whether a request to stop has been passed. -/
structure Feed where
  ready : List UInt8
  items : List Feed.Item
  stopped : Bool
  deriving DecidableEq

namespace Feed

def ofItems (items : List Item) : Feed := ⟨[], items, false⟩

/-- A feed that delivers the UTF-8 bytes of a text. -/
def ofText (text : String) : Feed := ofItems [.bytes (Utf8.encode text.toList)]

/-- The bytes in a script. -/
def scriptSize : List Item → Nat
  | [] => 0
  | i :: items => i.size + scriptSize items

/-- The bytes still in the feed. -/
def size (f : Feed) : Nat := f.ready.length + scriptSize f.items

/-- Goes through the script up to the next byte, end or failure. -/
def pullItems (stopped : Bool) : List Item → Pull × Feed
  | [] => (.ended, ⟨[], [], stopped⟩)
  | .bytes [] :: items => (.ended, ⟨[], items, stopped⟩)
  | .bytes (b :: bs) :: items => (.byte b, ⟨bs, items, stopped⟩)
  | .failure e :: items =>
    if e.kind = .interrupted then pullItems stopped items else (.failed e, ⟨[], items, stopped⟩)
  | .stop :: items => pullItems true items

/-- Asks for the next byte. -/
def pull (f : Feed) : Pull × Feed :=
  match f.ready with
  | b :: bs => (.byte b, { f with ready := bs })
  | [] => pullItems f.stopped f.items

/-- What follows a lead byte: continuation bytes, the failure that cut them short, and the feed
after them. -/
structure Tail where
  bytes : List UInt8
  failure : Option ReadError
  rest : Feed

/-- Asks for up to `n` continuation bytes. A byte of another sort ends them and is lost. -/
def tail (f : Feed) : Nat → Tail
  | 0 => ⟨[], none, f⟩
  | n + 1 =>
    match f.pull with
    | (.byte b, g) =>
      if Utf8.isContinuation b then
        let t := g.tail n
        { t with bytes := b :: t.bytes }
      else ⟨[], none, g⟩
    | (.ended, g) => ⟨[], none, g⟩
    | (.failed e, g) => ⟨[], some e, g⟩

/-- Asks for the next character, byte by byte and no further than its lead byte announces. -/
def fetch (f : Feed) : Fetch × Feed :=
  match f.pull with
  | (.byte lead, g) =>
    let t := g.tail (Utf8.width lead - 1)
    match Utf8.decode? (lead :: t.bytes) with
    | some c => (.char c, t.rest)
    | none => (.ended (lead :: t.bytes) t.failure, t.rest)
  | (.ended, g) => (.ended [] none, g)
  | (.failed e, g) => (.ended [] (some e), g)

/-- The bytes that an answer delivers. -/
def Pull.size : Pull → Nat
  | byte _ => 1
  | _ => 0

theorem size_pullItems (s : Bool) (items : List Item) :
    (pullItems s items).2.size + (pullItems s items).1.size = scriptSize items := by
  fun_induction pullItems s items with
  | case1 => rfl
  | case2 => simp [size, scriptSize, Pull.size, Item.size]
  | case3 s b bs items => simp [size, scriptSize, Pull.size, Item.size]; omega
  | case4 s e items he ih => simpa [scriptSize, Item.size] using ih
  | case5 s e items he => simp [size, scriptSize, Pull.size, Item.size]
  | case6 s items ih => simpa [scriptSize, Item.size] using ih

theorem size_pull (f : Feed) : f.pull.2.size + f.pull.1.size = f.size := by
  unfold pull
  split
  · next b bs h => simp [size, Pull.size, h]; omega
  · next h => rw [size_pullItems]; simp [size, h]

theorem size_of_pull {f g : Feed} {p : Pull} (h : f.pull = (p, g)) : g.size + p.size = f.size := by
  simpa [h] using size_pull f

theorem size_tail (f : Feed) (n : Nat) :
    (f.tail n).rest.size + (f.tail n).bytes.length ≤ f.size := by
  fun_induction tail f n with
  | case1 => simp
  | case2 f n b g hp hb t ih =>
    have := size_of_pull hp
    simp [Pull.size, t] at this ih ⊢; omega
  | case3 f n b g hp hb =>
    have := size_of_pull hp
    simp; omega
  | case4 f n g hp => have := size_of_pull hp; simp; omega
  | case5 f n e g hp => have := size_of_pull hp; simp; omega

/-- **A delivered character costs at least the bytes of its encoding.** -/
theorem size_of_fetch_char {f g : Feed} {c : Char} (h : f.fetch = (.char c, g)) :
    g.size + c.utf8Size ≤ f.size := by
  unfold fetch at h
  split at h
  · next lead k hp =>
    dsimp only at h
    split at h
    · next d hd =>
      obtain ⟨rfl, rfl⟩ : d = c ∧ _ = g := by simpa using h
      have h1 := size_of_pull hp
      have h2 := k.size_tail (Utf8.width lead - 1)
      have h3 := Utf8.utf8Size_of_decode? hd
      simp [Pull.size] at h1 h3; omega
    · simp at h
  · simp at h
  · simp at h

theorem size_fetch_le (f : Feed) : f.fetch.2.size ≤ f.size := by
  unfold fetch
  split
  · next lead k hp =>
    have h1 := size_of_pull hp
    have h2 := k.size_tail (Utf8.width lead - 1)
    dsimp only
    split <;> dsimp only <;> omega
  · next k hp => have := size_of_pull hp; dsimp only; omega
  · next e k hp => have := size_of_pull hp; dsimp only; omega

end Feed

end ParenLex
