import ParenLex.Proofs.Requests
import ParenLex.Proofs.Lookahead

/-!
# Decoding is exact

A reader that is asked for characters until none comes hands out those of the longest well-formed
beginning of its bytes, as the standard has it, and stands at the end of each of them in turn. What
it keeps of the bytes after them are the first and the continuation bytes that directly follow.

* `wellFormed_iff`: the sequences of the standard's table are the encodings of characters.
* `drain_before`: what is handed out until none comes.
* `decoding_exact`: all of it for the reader of a feed.
-/

namespace ParenLex

namespace Utf8

/-- The standard's table of well-formed sequences: the bounds of each byte, a row for each way in
which a character may begin. There is no row for an overlong form, a surrogate or a value above
`U+10FFFF`. -/
def table : List (List (Nat × Nat)) :=
  [[(0x00, 0x7F)],
    [(0xC2, 0xDF), (0x80, 0xBF)],
    [(0xE0, 0xE0), (0xA0, 0xBF), (0x80, 0xBF)],
    [(0xE1, 0xEC), (0x80, 0xBF), (0x80, 0xBF)],
    [(0xED, 0xED), (0x80, 0x9F), (0x80, 0xBF)],
    [(0xEE, 0xEF), (0x80, 0xBF), (0x80, 0xBF)],
    [(0xF0, 0xF0), (0x90, 0xBF), (0x80, 0xBF), (0x80, 0xBF)],
    [(0xF1, 0xF3), (0x80, 0xBF), (0x80, 0xBF), (0x80, 0xBF)],
    [(0xF4, 0xF4), (0x80, 0x8F), (0x80, 0xBF), (0x80, 0xBF)]]

/-- **A well-formed sequence**: bytes within the bounds of one row. -/
def WellFormed (bs : List UInt8) : Prop :=
  ∃ row ∈ table, List.Forall₂ (fun (b : UInt8) r => r.1 ≤ b.toNat ∧ b.toNat ≤ r.2) bs row

/-- Well-formed sequences, one after another. -/
inductive Sequences : List UInt8 → Prop
  | nil : Sequences []
  | cons {bs rest : List UInt8} : WellFormed bs → Sequences rest → Sequences (bs ++ rest)

/-- How many continuation bytes may belong to a byte. -/
def continuations (x : UInt8) : Nat :=
  if 0xC2 ≤ x ∧ x ≤ 0xDF then 1
  else if 0xE0 ≤ x ∧ x ≤ 0xEF then 2
  else if 0xF0 ≤ x ∧ x ≤ 0xF4 then 3
  else 0

theorem width_sub_one (x : UInt8) : width x - 1 = continuations x := by
  simp only [width, continuations, UInt8.le_iff_toNat_le, Bool.and_eq_true, decide_eq_true_eq,
    UInt8.reduceToNat]
  split_ifs <;> omega

/-! ### The well-formed sequences are the encodings -/

/-- The bytes of a character by its number. -/
def spelling (v : Nat) : List Nat :=
  if v ≤ 0x7F then [v]
  else if v ≤ 0x7FF then [v / 64 + 0xC0, v % 64 + 0x80]
  else if v ≤ 0xFFFF then [v / 4096 + 0xE0, v / 64 % 64 + 0x80, v % 64 + 0x80]
  else [v / 262144 + 0xF0, v / 4096 % 64 + 0x80, v / 64 % 64 + 0x80, v % 64 + 0x80]

theorem map_toNat_encodeChar (c : Char) :
    (String.utf8EncodeChar c).map UInt8.toNat = spelling c.val.toNat := by
  have hv := val_lt c
  unfold String.utf8EncodeChar spelling
  set v := c.val.toNat
  simp only
  split_ifs <;> simp only [List.map_cons, List.map_nil, UInt8.toNat_ofNat', List.cons.injEq,
    and_true] <;> omega

/-- Bytes that spell the number of a character encode it. -/
theorem exists_char {bs : List UInt8} {v : Nat} (hv : v.isValidChar)
    (h : bs.map UInt8.toNat = spelling v) : ∃ c, bs = String.utf8EncodeChar c := by
  refine ⟨Char.ofNatAux v hv, ?_⟩
  have he := map_toNat_encodeChar (Char.ofNatAux v hv)
  exact List.map_injective_iff.2 (fun _ _ => UInt8.toNat_inj.1) (h.trans he.symm)

variable {a b c d : UInt8}

/-- A lead for three bytes, unless the second makes the whole too short a character or a
surrogate. -/
theorem exists_char_three (ha : 0xE0 ≤ a.toNat ∧ a.toNat ≤ 0xEF)
    (hb : 0x80 ≤ b.toNat ∧ b.toNat ≤ 0xBF) (hc : 0x80 ≤ c.toNat ∧ c.toNat ≤ 0xBF)
    (hlow : a.toNat = 0xE0 → 0xA0 ≤ b.toNat) (hsur : a.toNat = 0xED → b.toNat ≤ 0x9F) :
    ∃ x, [a, b, c] = String.utf8EncodeChar x := by
  have hv : ((a.toNat - 0xE0) * 4096 + (b.toNat - 0x80) * 64 + (c.toNat - 0x80)).isValidChar := by
    unfold Nat.isValidChar
    omega
  apply exists_char hv
  rw [spelling, if_neg (by omega), if_neg (by omega), if_pos (by omega)]
  simp only [List.map_cons, List.map_nil, List.cons.injEq, and_true]
  omega

/-- A lead for four bytes, unless the second makes the whole too short a character or one above the
last. -/
theorem exists_char_four (ha : 0xF0 ≤ a.toNat ∧ a.toNat ≤ 0xF4)
    (hb : 0x80 ≤ b.toNat ∧ b.toNat ≤ 0xBF) (hc : 0x80 ≤ c.toNat ∧ c.toNat ≤ 0xBF)
    (hd : 0x80 ≤ d.toNat ∧ d.toNat ≤ 0xBF) (hlow : a.toNat = 0xF0 → 0x90 ≤ b.toNat)
    (htop : a.toNat = 0xF4 → b.toNat ≤ 0x8F) : ∃ x, [a, b, c, d] = String.utf8EncodeChar x := by
  have hv : ((a.toNat - 0xF0) * 262144 + (b.toNat - 0x80) * 4096 + (c.toNat - 0x80) * 64 +
      (d.toNat - 0x80)).isValidChar := by
    unfold Nat.isValidChar
    omega
  apply exists_char hv
  rw [spelling, if_neg (by omega), if_neg (by omega), if_neg (by omega)]
  simp only [List.map_cons, List.map_nil, List.cons.injEq, and_true]
  omega

theorem exists_char_of_wellFormed {bs : List UInt8} (h : WellFormed bs) :
    ∃ c, bs = String.utf8EncodeChar c := by
  obtain ⟨row, hrow, h⟩ := h
  simp only [table, List.mem_cons, List.not_mem_nil, or_false] at hrow
  rcases hrow with rfl | rfl | rfl | rfl | rfl | rfl | rfl | rfl | rfl <;>
    simp only [List.forall₂_cons_right_iff, List.forall₂_nil_right_iff] at h
  · obtain ⟨a, -, ha, rfl, rfl⟩ := h
    apply exists_char (v := a.toNat) (.inl (by omega))
    rw [spelling, if_pos ha.2]
    rfl
  · obtain ⟨a, -, ha, ⟨b, -, hb, rfl, rfl⟩, rfl⟩ := h
    have hv : ((a.toNat - 0xC0) * 64 + (b.toNat - 0x80)).isValidChar := .inl (by omega)
    apply exists_char hv
    rw [spelling, if_neg (by omega), if_pos (by omega)]
    simp only [List.map_cons, List.map_nil, List.cons.injEq, and_true]
    omega
  · obtain ⟨a, -, ha, ⟨b, -, hb, ⟨c, -, hc, rfl, rfl⟩, rfl⟩, rfl⟩ := h
    exact exists_char_three (by omega) (by omega) hc (by omega) (by omega)
  · obtain ⟨a, -, ha, ⟨b, -, hb, ⟨c, -, hc, rfl, rfl⟩, rfl⟩, rfl⟩ := h
    exact exists_char_three (by omega) hb hc (by omega) (by omega)
  · obtain ⟨a, -, ha, ⟨b, -, hb, ⟨c, -, hc, rfl, rfl⟩, rfl⟩, rfl⟩ := h
    exact exists_char_three (by omega) (by omega) hc (by omega) (by omega)
  · obtain ⟨a, -, ha, ⟨b, -, hb, ⟨c, -, hc, rfl, rfl⟩, rfl⟩, rfl⟩ := h
    exact exists_char_three (by omega) hb hc (by omega) (by omega)
  · obtain ⟨a, -, ha, ⟨b, -, hb, ⟨c, -, hc, ⟨d, -, hd, rfl, rfl⟩, rfl⟩, rfl⟩, rfl⟩ := h
    exact exists_char_four (by omega) (by omega) hc hd (by omega) (by omega)
  · obtain ⟨a, -, ha, ⟨b, -, hb, ⟨c, -, hc, ⟨d, -, hd, rfl, rfl⟩, rfl⟩, rfl⟩, rfl⟩ := h
    exact exists_char_four (by omega) hb hc hd (by omega) (by omega)
  · obtain ⟨a, -, ha, ⟨b, -, hb, ⟨c, -, hc, ⟨d, -, hd, rfl, rfl⟩, rfl⟩, rfl⟩, rfl⟩ := h
    exact exists_char_four (by omega) (by omega) hc hd (by omega) (by omega)

theorem wellFormed_encodeChar (c : Char) : WellFormed (String.utf8EncodeChar c) := by
  suffices ∃ row ∈ table, List.Forall₂ (fun n r => r.1 ≤ n ∧ n ≤ r.2) (spelling c.val.toNat) row by
    obtain ⟨row, hrow, h⟩ := this
    rw [← map_toNat_encodeChar, List.forall₂_map_left_iff] at h
    exact ⟨row, hrow, h⟩
  have hv : c.val.toNat.isValidChar := c.valid
  unfold Nat.isValidChar at hv
  unfold spelling table
  set v := c.val.toNat
  simp only [List.exists_mem_cons_iff]
  split_ifs <;> simp <;> omega

/-- **The well-formed sequences are the encodings of the characters.** -/
theorem wellFormed_iff {bs : List UInt8} :
    WellFormed bs ↔ ∃ c, bs = String.utf8EncodeChar c := by
  constructor
  · exact exists_char_of_wellFormed
  · rintro ⟨c, rfl⟩
    exact wellFormed_encodeChar c

/-- One after another they are the encodings of texts. -/
theorem sequences_iff {bs : List UInt8} : Sequences bs ↔ ∃ cs, bs = encode cs := by
  constructor
  · intro h
    induction h with
    | nil => exact ⟨[], rfl⟩
    | cons hb _ ih =>
      obtain ⟨c, rfl⟩ := wellFormed_iff.1 hb
      obtain ⟨cs, rfl⟩ := ih
      exact ⟨c :: cs, rfl⟩
  · rintro ⟨cs, rfl⟩
    induction cs with
    | nil => exact .nil
    | cons c cs ih => exact .cons (wellFormed_encodeChar c) ih

end Utf8

/-- **The characters of a feed are the longest text at the head of its bytes.** -/
theorem Feed.prefix_encode_chars {f : Feed} {p : List UInt8} (hp : Utf8.Sequences p)
    (h : p <+: f.delivered) : p <+: Utf8.encode f.chars := by
  obtain ⟨cs, rfl⟩ := Utf8.sequences_iff.1 hp
  obtain ⟨rest, hr⟩ := h
  obtain ⟨g, -, hc, -⟩ := exists_after hr.symm
  rw [hc, Utf8.encode_append]
  exact List.prefix_append _ _

namespace Reader

variable {r k : Reader} {c : Char} {cs : List Char} {e : Feed.Ending} {n : Nat}

/-- **Hands out characters until none comes**, each with the offset after it. -/
def drain (r : Reader) : List (Char × Nat) × Reader :=
  match _h : r.next with
  | (some c, k) => ((c, k.offset) :: k.drain.1, k.drain.2)
  | (none, k) => ([], k)
termination_by r.size
decreasing_by all_goals exact size_of_next _h

theorem drain_of_char (h : r.next = (some c, k)) :
    r.drain = ((c, k.offset) :: k.drain.1, k.drain.2) := by
  rw [drain]
  split
  · next d k' hd =>
    obtain ⟨rfl, rfl⟩ : c = d ∧ k = k' := by simpa [h] using hd
    rfl
  · next k' hd => simp [h] at hd

theorem drain_of_ended (h : r.next = (none, k)) : r.drain = ([], k) := by
  rw [drain]
  split
  · next d k' hd => simp [h] at hd
  · next k' hd =>
    obtain rfl : k = k' := by simpa [h] using hd
    rfl

/-- The offsets at the ends of characters, from an offset on. -/
def ends (n : Nat) : List Char → List Nat
  | [] => []
  | c :: cs => (n + c.utf8Size) :: ends (n + c.utf8Size) cs

/-- They are the sizes of the texts that the characters make one by one. -/
theorem ends_eq (n : Nat) (cs : List Char) :
    ends n cs = cs.inits.tail.map (n + byteSize ·) := by
  induction cs generalizing n with
  | nil => rfl
  | cons c cs ih =>
    obtain ⟨heads, hheads⟩ : ∃ heads, cs.inits = [] :: heads := by cases cs <;> simp
    rw [ends, ih, List.inits_cons, List.tail_cons, hheads]
    simp [Nat.add_assoc]

/-- **What is handed out are the characters before which the reader stands.** -/
theorem drain_before (h : r.Before cs e n) : r.drain.1 = cs.zip (ends n cs) ∧
    r.drain.2.offset = n + byteSize cs ∧ r.drain.2.leftover = some e.bytes := by
  induction cs generalizing r n with
  | nil =>
    obtain ⟨k, hk, hb, -, hl⟩ := next_nil h
    rw [drain_of_ended hk]
    exact ⟨rfl, hb.offset, hl⟩
  | cons c cs ih =>
    obtain ⟨k, hk, hb, -⟩ := next_cons h
    obtain ⟨h1, h2, h3⟩ := ih hb
    rw [drain_of_char hk]
    refine ⟨?_, ?_, h3⟩
    · rw [h1, hb.offset]
      rfl
    · rw [byteSize_cons, ← Nat.add_assoc]
      exact h2

variable {f : Feed} {bs : List UInt8}

/-- **Decoding is exact.** The reader of any bytes, asked for characters until none comes, hands out
those of the longest beginning of the bytes that is made of well-formed sequences, and is at the end
of each of them in turn. It keeps nothing if these are all the bytes, and otherwise the first byte
after them with the continuation bytes directly behind it, as many as may belong to it. Of the bytes
of a text it hands out the characters of the text. -/
theorem decoding_exact (hd : f.delivered = bs) :
    ∃ cs rest, bs = Utf8.encode cs ++ rest ∧ Utf8.Sequences (Utf8.encode cs) ∧
      (∀ p, Utf8.Sequences p → p <+: bs → p <+: Utf8.encode cs) ∧
      (ofFeed f).drain.1 = cs.zip (cs.inits.tail.map byteSize) ∧
      (ofFeed f).drain.2.offset = (Utf8.encode cs).length ∧
      ((ofFeed f).drain.2.undecoded? = none ↔ rest = []) ∧
      (∀ x after, rest = x :: after → (ofFeed f).drain.2.undecoded? =
        some (x :: (after.take (Utf8.continuations x)).takeWhile Utf8.isContinuation)) ∧
      ∀ text, bs = Utf8.encode text → cs = text ∧ rest = [] := by
  obtain ⟨rest, hbs, hrest⟩ := f.delivered_eq_append
  have hend := (Feed.chars_of_append hbs hrest).2
  obtain ⟨h1, h2, h3⟩ := drain_before (before_ofFeed f)
  rw [hd] at hbs
  have hleft : (ofFeed f).drain.2.undecoded? = (some (Utf8.broken rest)).filter (· ≠ []) := by
    rw [undecoded?, h3, hend]
  refine ⟨f.chars, rest, hbs, Utf8.sequences_iff.2 ⟨_, rfl⟩, ?_, ?_, ?_, ?_, ?_, ?_⟩
  · intro p hp hpre
    rw [← hd] at hpre
    exact Feed.prefix_encode_chars hp hpre
  · rw [h1, ends_eq]
    simp only [Nat.zero_add]
  · rw [h2, Nat.zero_add, Utf8.length_encode]
  · rw [hleft]
    cases rest with
    | nil => simp [Utf8.broken]
    | cons x after => simp [Utf8.broken]
  · rintro x after rfl
    rw [hleft, ← Utf8.width_sub_one]
    rfl
  · intro text ht
    have hc := (Feed.chars_of_delivered (hd.trans ht)).1
    rw [hc] at hbs ⊢
    refine ⟨rfl, ?_⟩
    rw [ht] at hbs
    exact List.self_eq_append_right.1 hbs

/-- A surrogate after a letter, in two reads. -/
theorem decoding_exact_surrogate :
    let f := Feed.ofItems [.bytes [0x61, 0xED], .stop, .bytes [0xA0, 0x80]]
    f.delivered = [0x61, 0xED, 0xA0, 0x80] ∧ (ofFeed f).drain.1 = [('a', 1)] ∧
      (ofFeed f).drain.2.undecoded? = some [0xED, 0xA0, 0x80] ∧
      ∀ p, Utf8.Sequences p → p <+: [0x61, 0xED, 0xA0, 0x80] → p <+: [0x61] := by
  intro f
  have hd : f.delivered = [0x61, 0xED, 0xA0, 0x80] := by decide
  have hdrain : (ofFeed f).drain.1 = [('a', 1)] := by decide +kernel
  obtain ⟨cs, rest, hbs, -, hmax, h1, -, -, h2, -⟩ := decoding_exact hd
  have hcs := congrArg (List.map Prod.fst) (h1.symm.trans hdrain)
  rw [List.map_fst_zip (by simp)] at hcs
  obtain rfl : cs = ['a'] := hcs
  obtain rfl : rest = [0xED, 0xA0, 0x80] := (List.cons.inj hbs).2.symm
  exact ⟨hd, hdrain, h2 _ _ rfl, hmax⟩

end Reader

end ParenLex
