import Mathlib.Data.List.TakeWhile
import Mathlib.Tactic
import ParenLex.Text.ByteSize
import ParenLex.Utf8

/-!
# The bytes of encoded characters

* `encodeChar_eq`: a character is a lead byte, which announces its length, and continuation bytes.
* `lineFeed_mem_encodeChar`: a line feed is a byte of no other character.
-/

namespace ParenLex.Utf8

theorem width_ofNat {n : Nat} (h : n < 256) : width (UInt8.ofNat n) =
    if n ≤ 0x7F then 1 else if 0xC2 ≤ n ∧ n ≤ 0xDF then 2 else if 0xE0 ≤ n ∧ n ≤ 0xEF then 3
    else if 0xF0 ≤ n ∧ n ≤ 0xF4 then 4 else 0 := by
  simp [width, UInt8.le_iff_toNat_le, Nat.mod_eq_of_lt h]

theorem isContinuation_ofNat (n : Nat) : isContinuation (UInt8.ofNat (n % 64 + 128)) = true := by
  have h : n % 64 + 128 < 256 := by omega
  simp only [isContinuation, UInt8.le_iff_toNat_le, UInt8.toNat_ofNat', Nat.mod_eq_of_lt h]
  simp; omega

theorem val_lt (c : Char) : c.val.toNat < 1114112 := by
  have := c.valid
  rcases this with h | h <;> simp at h ⊢ <;> omega

/-- **A character is its lead byte, which announces its length, and continuation bytes.** -/
theorem encodeChar_eq (c : Char) : ∃ lead rest, String.utf8EncodeChar c = lead :: rest ∧
    width lead = rest.length + 1 ∧ ∀ b ∈ rest, isContinuation b = true := by
  have hv := val_lt c
  unfold String.utf8EncodeChar
  set v := c.val.toNat
  simp only
  split_ifs with h1 h2 h3
  · refine ⟨_, _, rfl, ?_, by simp⟩
    rw [width_ofNat (by omega), if_pos h1]; rfl
  · refine ⟨_, _, rfl, ?_, ?_⟩
    · rw [width_ofNat (by omega), if_neg (by omega), if_pos (by omega)]; rfl
    · simp only [List.forall_mem_cons, isContinuation_ofNat, true_and]; simp
  · refine ⟨_, _, rfl, ?_, ?_⟩
    · rw [width_ofNat (by omega), if_neg (by omega), if_neg (by omega), if_pos (by omega)]; rfl
    · simp only [List.forall_mem_cons, isContinuation_ofNat, true_and]; simp
  · refine ⟨_, _, rfl, ?_, ?_⟩
    · rw [width_ofNat (by omega), if_neg (by omega), if_neg (by omega), if_neg (by omega),
        if_pos (by omega)]
      rfl
    · simp only [List.forall_mem_cons, isContinuation_ofNat, true_and]; simp

@[simp] theorem encode_nil : encode [] = [] := rfl

@[simp] theorem encode_cons (c : Char) (cs : List Char) :
    encode (c :: cs) = String.utf8EncodeChar c ++ encode cs := rfl

@[simp] theorem encode_append (cs ds : List Char) : encode (cs ++ ds) = encode cs ++ encode ds :=
  List.flatMap_append

@[simp] theorem length_encode (cs : List Char) : (encode cs).length = byteSize cs := by
  induction cs with
  | nil => rfl
  | cons c cs ih => simp [ih]

theorem length_le_byteSize (cs : List Char) : cs.length ≤ byteSize cs := by
  induction cs with
  | nil => simp
  | cons c cs ih =>
    have := c.utf8Size_pos
    simp only [List.length_cons, byteSize_cons]
    omega

theorem byteSize_toList (s : String) : byteSize s.toList = s.utf8ByteSize := by
  have h : s = String.ofList s.toList := by simp
  rw [h, ← String.size_toByteArray, String.toByteArray_ofList]
  simp [List.utf8Encode, ← length_encode, encode]

/-- A line feed is a byte of no other character. -/
theorem lineFeed_mem_encodeChar {c : Char} : 10 ∈ String.utf8EncodeChar c ↔ c = '\n' := by
  have hv := val_lt c
  constructor
  · intro h
    have hc : c.val.toNat = 10 := by
      unfold String.utf8EncodeChar at h
      set v := c.val.toNat
      have h10 : UInt8.toNat 10 = 10 := rfl
      simp only at h
      split_ifs at h <;> simp only [List.mem_cons, List.not_mem_nil, or_false, ← UInt8.toNat_inj,
        UInt8.toNat_ofNat', h10] at h <;> omega
    exact Char.ext (UInt32.toNat_inj.1 hc)
  · rintro rfl; decide

/-- The line feeds among the bytes are those among the characters. -/
theorem count_encode (cs : List Char) : (encode cs).count 10 = cs.count '\n' := by
  induction cs with
  | nil => rfl
  | cons c cs ih =>
    rw [encode_cons, List.count_append, ih, List.count_cons]
    by_cases hc : c = '\n'
    · subst hc
      rw [Nat.add_comm]; rfl
    · have hn : 10 ∉ String.utf8EncodeChar c := fun h => hc (lineFeed_mem_encodeChar.1 h)
      simp [List.count_eq_zero_of_not_mem hn, hc]

end ParenLex.Utf8
