/-!
# UTF-8, one character at a time

A lead byte announces how many bytes its character has; the bytes that follow it are continuation
bytes. Whether the whole is a character is for `decode?` to say.

* `decode?_eq_some_iff`: `decode?` accepts exactly the encodings of single characters, hence no
  overlong form, no surrogate and nothing above the last code point.
-/

namespace ParenLex.Utf8

/-- The length that a lead byte announces, 0 for a byte that cannot lead. -/
def width (lead : UInt8) : Nat :=
  if lead ≤ 0x7F then 1
  else if 0xC2 ≤ lead && lead ≤ 0xDF then 2
  else if 0xE0 ≤ lead && lead ≤ 0xEF then 3
  else if 0xF0 ≤ lead && lead ≤ 0xF4 then 4
  else 0

def isContinuation (b : UInt8) : Bool := 0x80 ≤ b && b ≤ 0xBF

/-- The character that the bytes encode, all of them and no others. -/
def decode? (bytes : List UInt8) : Option Char :=
  (bytes.toByteArray.utf8DecodeChar? 0).filter fun c => c.utf8Size == bytes.length

/-- **The accepted sequences are the encodings of single characters.** -/
theorem decode?_eq_some_iff {bytes : List UInt8} {c : Char} :
    decode? bytes = some c ↔ bytes = String.utf8EncodeChar c := by
  unfold decode?
  rw [Option.filter_eq_some_iff]
  constructor
  · rintro ⟨h, hn⟩
    obtain ⟨l, hl⟩ := ByteArray.exists_of_utf8DecodeChar?_eq_some h
    have hn : c.utf8Size = bytes.length := by simpa using hn
    have hs := congrArg ByteArray.size hl
    have hb : l = ByteArray.empty := by
      apply ByteArray.size_eq_zero_iff.1
      simp at hs; omega
    rw [hb, ByteArray.append_empty] at hl
    exact List.toByteArray_inj.1 hl
  · rintro rfl
    refine ⟨?_, by simp⟩
    have := @ByteArray.utf8DecodeChar?_utf8EncodeChar_append ByteArray.empty c
    rwa [ByteArray.append_empty] at this

/-- The bytes of a text. -/
def encode (cs : List Char) : List UInt8 := cs.flatMap String.utf8EncodeChar

theorem utf8Size_of_decode? {bytes : List UInt8} {c : Char} (h : decode? bytes = some c) :
    c.utf8Size = bytes.length := by
  rw [decode?_eq_some_iff.1 h, String.length_utf8EncodeChar]

end ParenLex.Utf8
