import ParenLex.Feed
import ParenLex.Proofs.Utf8

/-!
# What a feed delivers

A feed delivers the bytes that stand before the first end of input or failed read in its script,
however they are cut into reads, and those bytes fall into characters and a rest that begins with
no character.

* `delivered_eq`: the bytes are those of the characters, and of the rest.
* `chars_of_delivered`: a feed that delivers the bytes of a text delivers its characters.
-/

namespace ParenLex.Feed

/-- The bytes of a script before its first end of input or failed read. -/
def scriptBytes : List Item → List UInt8
  | [] => []
  | .bytes [] :: _ => []
  | .bytes (b :: bs) :: items => b :: bs ++ scriptBytes items
  | .failure e :: items => if e.kind = .interrupted then scriptBytes items else []
  | .stop :: items => scriptBytes items

/-- The failed read that a script meets, if no end of input stands before it. -/
def scriptFailure : List Item → Option ReadError
  | [] => none
  | .bytes [] :: _ => none
  | .bytes (_ :: _) :: items => scriptFailure items
  | .failure e :: items => if e.kind = .interrupted then scriptFailure items else some e
  | .stop :: items => scriptFailure items

/-- **The bytes that a feed delivers.** -/
def delivered (f : Feed) : List UInt8 := f.ready ++ scriptBytes f.items

/-- The failed read that ends a feed, if one does. -/
def failure? (f : Feed) : Option ReadError := scriptFailure f.items

/-- Whether a request to stop is in a feed or has been passed. -/
def stops (f : Feed) : Bool := f.stopped || f.items.contains .stop

/-- What a feed has beside its characters: the bytes read of one that did not come to be, the
failure met on the way, and whether a stop is asked for anywhere. -/
structure Ending where
  bytes : List UInt8
  failure : Option ReadError
  stops : Bool
  deriving DecidableEq

/-- The characters that a feed delivers. -/
def chars (f : Feed) : List Char :=
  match _h : f.fetch with
  | (.char c, g) => c :: g.chars
  | (.ended _ _, _) => []
termination_by f.size
decreasing_by have := size_of_fetch_char _h; have := c.utf8Size_pos; omega

/-- What stands after them. -/
def ending (f : Feed) : Ending :=
  match _h : f.fetch with
  | (.char _, g) => g.ending
  | (.ended bs e, g) => ⟨bs, e, g.stops⟩
termination_by f.size
decreasing_by have := size_of_fetch_char _h; have := Char.utf8Size_pos ‹_›; omega

variable {f g : Feed} {c : Char} {bs : List UInt8} {e : Option ReadError}

theorem chars_of_char (h : f.fetch = (.char c, g)) : f.chars = c :: g.chars := by
  rw [chars]; split <;> simp_all

theorem chars_of_ended (h : f.fetch = (.ended bs e, g)) : f.chars = [] := by
  rw [chars]; split <;> simp_all

theorem ending_of_char (h : f.fetch = (.char c, g)) : f.ending = g.ending := by
  rw [ending]; split <;> simp_all

theorem ending_of_ended (h : f.fetch = (.ended bs e, g)) : f.ending = ⟨bs, e, g.stops⟩ := by
  rw [ending]; split <;> simp_all

/-! ### Bytes -/

/-- What a request for a byte means for the bytes delivered. -/
def Pulls (p : Pull) (bs : List UInt8) (e : Option ReadError) (g : Feed) : Prop :=
  match p with
  | .byte b => bs = b :: g.delivered ∧ g.failure? = e
  | .ended => bs = [] ∧ e = none
  | .failed e' => bs = [] ∧ e = some e'

theorem pulls_pullItems (stopped : Bool) (items : List Item) :
    Pulls (pullItems stopped items).1 (scriptBytes items) (scriptFailure items)
      (pullItems stopped items).2 := by
  fun_induction pullItems stopped items with
  | case1 => exact ⟨rfl, rfl⟩
  | case2 => exact ⟨rfl, rfl⟩
  | case3 => exact ⟨rfl, rfl⟩
  | case4 s e items he ih => simpa [scriptBytes, scriptFailure, he] using ih
  | case5 s e items he => simp [Pulls, scriptBytes, scriptFailure, he]
  | case6 s items ih => exact ih

/-- **A request takes the first byte delivered**, and meets the end when there is none. -/
theorem pulls_pull (f : Feed) : Pulls f.pull.1 f.delivered f.failure? f.pull.2 := by
  unfold pull
  split
  · next b bs h => exact ⟨by simp [delivered, h], rfl⟩
  · next h => simpa [delivered, h, failure?] using pulls_pullItems f.stopped f.items

theorem pulls_of_pull {p : Pull} (h : f.pull = (p, g)) : Pulls p f.delivered f.failure? g := by
  simpa [h] using f.pulls_pull

/-- The bytes of a tail are the first continuation bytes delivered, and no more than asked for. -/
theorem bytes_tail (f : Feed) (n : Nat) :
    (f.tail n).bytes = (f.delivered.take n).takeWhile Utf8.isContinuation := by
  fun_induction tail f n with
  | case1 => rfl
  | case2 f n b g hp hb t ih => simp [(pulls_of_pull hp).1, hb, ← ih, t]
  | case3 f n b g hp hb => simp [(pulls_of_pull hp).1, hb]
  | case4 f n g hp => simp [(pulls_of_pull hp).1]
  | case5 f n e g hp => simp [(pulls_of_pull hp).1]

/-- A tail that gets all it asks for takes nothing else. -/
theorem rest_tail {n : Nat} (h : (f.tail n).bytes.length = n) :
    f.delivered = (f.tail n).bytes ++ (f.tail n).rest.delivered ∧
      (f.tail n).rest.failure? = f.failure? := by
  fun_induction tail f n with
  | case1 => exact ⟨rfl, rfl⟩
  | case2 f n b g hp hb t ih =>
    obtain ⟨h1, h2⟩ := pulls_of_pull hp
    obtain ⟨h3, h4⟩ := ih (by simpa [t] using h)
    exact ⟨by rw [h1, h3]; rfl, h4.trans h2⟩
  | case3 => simp at h
  | case4 => simp at h
  | case5 => simp at h

theorem failure_tail (f : Feed) (n : Nat) :
    (f.tail n).failure = none ∨ (f.tail n).failure = f.failure? := by
  fun_induction tail f n with
  | case1 => exact .inl rfl
  | case2 f n b g hp hb t ih => rwa [(pulls_of_pull hp).2] at ih
  | case3 => exact .inl rfl
  | case4 => exact .inl rfl
  | case5 f n e g hp => exact .inr (pulls_of_pull hp).2.symm

/-! ### Requests to stop -/

theorem stops_pullItems (stopped : Bool) (items : List Item) :
    (pullItems stopped items).2.stops = (stopped || items.contains .stop) := by
  fun_induction pullItems stopped items with
  | case1 => rfl
  | case2 => simp [stops]
  | case3 => simp [stops]
  | case4 s e items he ih => simpa using ih
  | case5 s e items he => simp [stops]
  | case6 s items ih => simpa using ih

theorem stops_pull (f : Feed) : f.pull.2.stops = f.stops := by
  unfold pull
  split
  · rfl
  · rw [stops_pullItems]; rfl

theorem stops_tail (f : Feed) (n : Nat) : (f.tail n).rest.stops = f.stops := by
  fun_induction tail f n with
  | case1 => rfl
  | case2 f n b g hp hb t ih => rw [← f.stops_pull, hp]; exact ih
  | case3 f n b g hp hb => rw [← f.stops_pull, hp]
  | case4 f n g hp => rw [← f.stops_pull, hp]
  | case5 f n e g hp => rw [← f.stops_pull, hp]

/-- **A request to stop is never lost.** -/
theorem stops_fetch (f : Feed) : f.fetch.2.stops = f.stops := by
  rw [← f.stops_pull]
  unfold fetch
  split
  · next lead g hp => rw [hp]; dsimp only; split <;> exact g.stops_tail _
  · next g hp => rw [hp]
  · next e g hp => rw [hp]

theorem stops_ending (f : Feed) : f.ending.stops = f.stops := by
  rw [← f.stops_fetch]
  fun_induction ending f with
  | case1 f c g h ih => rw [ih, h, ← g.stops_fetch]
  | case2 f bs e g h => rw [h]

/-! ### Characters -/

/-- **A character is delivered where the bytes delivered begin with one.** -/
theorem fetch_of_delivered (h : f.delivered = String.utf8EncodeChar c ++ bs) :
    ∃ g, f.fetch = (.char c, g) ∧ g.delivered = bs ∧ g.failure? = f.failure? := by
  obtain ⟨lead, rest, hc, hw, hr⟩ := Utf8.encodeChar_eq c
  rw [hc, List.cons_append] at h
  have hp := f.pulls_pull
  rcases hpull : f.pull with ⟨p, g⟩
  rw [hpull, h] at hp
  cases p with
  | ended => exact absurd hp.1 (by simp)
  | failed e => exact absurd hp.1 (by simp)
  | byte b =>
    obtain ⟨hb, hf⟩ := hp
    obtain ⟨rfl, hd⟩ := List.cons.inj hb
    -- the lead announces the bytes of `rest`, all of them continuation bytes
    have hn : Utf8.width lead - 1 = rest.length := by omega
    have ht : (g.tail rest.length).bytes = rest := by
      rw [bytes_tail, ← hd, List.take_left', List.takeWhile_eq_self_iff.2 hr]; rfl
    obtain ⟨h1, h2⟩ := rest_tail (f := g) (n := rest.length) (by rw [ht])
    refine ⟨(g.tail rest.length).rest, ?_, ?_, h2.trans hf⟩
    · have hdec : Utf8.decode? (lead :: rest) = some c := Utf8.decode?_eq_some_iff.2 hc.symm
      simp [fetch, hpull, hn, ht, hdec]
    · rw [ht, ← hd] at h1
      exact (List.append_cancel_left h1).symm

/-- How a character comes: it is a lead byte and the tail that this announces. -/
theorem lead_of_char (h : f.fetch = (.char c, g)) : ∃ lead rest k, f.pull = (.byte lead, k) ∧
    String.utf8EncodeChar c = lead :: rest ∧ (k.tail (Utf8.width lead - 1)).bytes = rest ∧
      Utf8.width lead - 1 = rest.length ∧ (k.tail (Utf8.width lead - 1)).rest = g := by
  rcases hpull : f.pull with ⟨p, k⟩
  cases p with
  | ended => simp [fetch, hpull] at h
  | failed e => simp [fetch, hpull] at h
  | byte b =>
    cases hd : Utf8.decode? (b :: (k.tail (Utf8.width b - 1)).bytes) with
    | none => simp [fetch, hpull, hd] at h
    | some d =>
      obtain ⟨rfl, hg⟩ : d = c ∧ (k.tail (Utf8.width b - 1)).rest = g := by
        simpa [fetch, hpull, hd] using h
      have hc := Utf8.decode?_eq_some_iff.1 hd
      obtain ⟨lead, rest, he, hw, -⟩ := Utf8.encodeChar_eq d
      obtain ⟨rfl, hr⟩ := List.cons.inj (hc.trans he)
      exact ⟨b, rest, k, rfl, he, hr, by omega, hg⟩

/-- How none comes: there is no byte, or the first and its tail are no character. -/
theorem lead_of_ended (h : f.fetch = (.ended bs e, g)) :
    (bs = [] ∧ f.delivered = [] ∧ e = f.failure? ∧ ∃ p, f.pull = (p, g) ∧ p.size = 0) ∨
    ∃ lead k, f.pull = (.byte lead, k) ∧ bs = lead :: (k.tail (Utf8.width lead - 1)).bytes ∧
      e = (k.tail (Utf8.width lead - 1)).failure ∧ g = (k.tail (Utf8.width lead - 1)).rest := by
  rcases hpull : f.pull with ⟨p, k⟩
  have hp := pulls_of_pull hpull
  cases p with
  | ended =>
    obtain ⟨⟨rfl, rfl⟩, rfl⟩ : ([] = bs ∧ none = e) ∧ k = g := by simpa [fetch, hpull] using h
    exact .inl ⟨rfl, hp.1, hp.2.symm, _, rfl, rfl⟩
  | failed e' =>
    obtain ⟨⟨rfl, rfl⟩, rfl⟩ : ([] = bs ∧ some e' = e) ∧ k = g := by simpa [fetch, hpull] using h
    exact .inl ⟨rfl, hp.1, hp.2.symm, _, rfl, rfl⟩
  | byte b =>
    cases hd : Utf8.decode? (b :: (k.tail (Utf8.width b - 1)).bytes) with
    | some d => simp [fetch, hpull, hd] at h
    | none =>
      obtain ⟨⟨rfl, rfl⟩, rfl⟩ :
          (b :: (k.tail (Utf8.width b - 1)).bytes = bs ∧ (k.tail (Utf8.width b - 1)).failure = e) ∧
            (k.tail (Utf8.width b - 1)).rest = g := by simpa [fetch, hpull, hd] using h
      exact .inr ⟨b, k, rfl, rfl, rfl, rfl⟩

theorem delivered_of_char (h : f.fetch = (.char c, g)) :
    f.delivered = String.utf8EncodeChar c ++ g.delivered ∧ g.failure? = f.failure? := by
  obtain ⟨lead, rest, k, hp, hc, hr, hn, rfl⟩ := lead_of_char h
  obtain ⟨hd, hf⟩ := pulls_of_pull hp
  obtain ⟨h1, h2⟩ := rest_tail (f := k) (n := Utf8.width lead - 1) (by rw [hr, hn])
  exact ⟨by rw [hd, h1, hr, hc]; rfl, h2.trans hf⟩

theorem delivered_of_ended (h : f.fetch = (.ended bs e, g)) :
    bs <+: f.delivered ∧ (bs = [] → f.delivered = []) ∧ (e = none ∨ e = f.failure?) := by
  rcases lead_of_ended h with ⟨rfl, hd, he, -⟩ | ⟨lead, k, hp, rfl, rfl, -⟩
  · exact ⟨List.nil_prefix, fun _ => hd, .inr he⟩
  · obtain ⟨hd, hf⟩ := pulls_of_pull hp
    refine ⟨?_, by simp, hf ▸ k.failure_tail _⟩
    rw [hd, bytes_tail]
    exact List.cons_prefix_cons.2
      ⟨rfl, (List.takeWhile_prefix _).trans (List.take_prefix _ _)⟩

/-- **The bytes delivered are those of the characters, and of what stands after them.** -/
theorem delivered_eq (f : Feed) : ∃ after, f.delivered = Utf8.encode f.chars ++ after ∧
    f.ending.bytes <+: after ∧ (f.ending.bytes = [] → after = []) := by
  fun_induction chars f with
  | case1 f c g h ih =>
    obtain ⟨after, h1, h2, h3⟩ := ih
    rw [ending_of_char h]
    exact ⟨after, by rw [(delivered_of_char h).1, h1]; simp, h2, h3⟩
  | case2 f bs e g h =>
    obtain ⟨h1, h2, -⟩ := delivered_of_ended h
    rw [ending_of_ended h]
    exact ⟨f.delivered, rfl, h1, h2⟩

theorem failure_ending (f : Feed) : f.ending.failure = none ∨ f.ending.failure = f.failure? := by
  fun_induction ending f with
  | case1 f c g h ih => rwa [(delivered_of_char h).2] at ih
  | case2 f bs e g h => exact (delivered_of_ended h).2.2

/-- After the bytes of a text come the characters, and the ending, of what stands after it. -/
theorem exists_after {cs : List Char} (h : f.delivered = Utf8.encode cs ++ bs) :
    ∃ g : Feed, g.delivered = bs ∧ f.chars = cs ++ g.chars ∧ f.ending = g.ending := by
  induction cs generalizing f with
  | nil => exact ⟨f, h, rfl, rfl⟩
  | cons c cs ih =>
    rw [Utf8.encode_cons, List.append_assoc] at h
    obtain ⟨g, hg, hd, -⟩ := fetch_of_delivered h
    obtain ⟨k, h1, h2, h3⟩ := ih hd
    exact ⟨k, h1, by rw [chars_of_char hg, h2]; rfl, by rw [ending_of_char hg, h3]⟩

/-- **Bytes of a text are delivered as its characters**, with nothing after them. -/
theorem chars_of_delivered {cs : List Char} (h : f.delivered = Utf8.encode cs) :
    f.chars = cs ∧ f.ending.bytes = [] := by
  obtain ⟨g, hd, hc, he⟩ := exists_after (h.trans (List.append_nil _).symm)
  rw [hc, he]
  rcases hg : g.fetch with ⟨c | ⟨bs, e⟩, k⟩
  · have := (delivered_of_char hg).1
    rw [hd] at this
    exact absurd (List.append_eq_nil_iff.1 this.symm).1 String.utf8EncodeChar_ne_nil
  · obtain ⟨h1, -⟩ := delivered_of_ended hg
    rw [hd] at h1
    rw [chars_of_ended hg, ending_of_ended hg, List.append_nil]
    exact ⟨rfl, List.prefix_nil.1 h1⟩

/-- A script of one read delivers its bytes. -/
theorem delivered_ofBytes (bs : List UInt8) : (ofItems [.bytes bs]).delivered = bs := by
  show scriptBytes [.bytes bs] = _
  cases bs <;> simp [scriptBytes]

theorem delivered_ofText (text : String) : (ofText text).delivered = Utf8.encode text.toList :=
  delivered_ofBytes _

theorem failure?_ofText (text : String) : (ofText text).failure? = none := by
  show scriptFailure [.bytes (Utf8.encode text.toList)] = _
  cases Utf8.encode text.toList <;> rfl

theorem chars_ofText (text : String) : (ofText text).chars = text.toList :=
  (chars_of_delivered (delivered_ofText text)).1

theorem ending_ofText (text : String) : (ofText text).ending = ⟨[], none, false⟩ := by
  have h1 := (chars_of_delivered (delivered_ofText text)).2
  have h2 := (ofText text).failure_ending
  have h3 := (ofText text).stops_ending
  rw [failure?_ofText, or_self] at h2
  rw [← h1, ← h2, show false = (ofText text).stops from rfl, ← h3]

end ParenLex.Feed
