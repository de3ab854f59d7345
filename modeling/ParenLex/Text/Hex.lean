/-!
# Hexadecimal text

Bytes as pairs of upper case digits.

* `length_ofBytes`: two digits a byte.
-/

namespace ParenLex.Text.Hex

/-- The digit of a value below 16, in upper case. -/
def digit (n : Nat) : Char :=
  if n < 10 then Char.ofNat ('0'.toNat + n) else Char.ofNat ('A'.toNat + (n - 10))

/-- The two digits of a byte. -/
def ofByte (b : UInt8) : List Char := [digit (b.toNat / 16), digit (b.toNat % 16)]

def ofBytes (bytes : List UInt8) : List Char := bytes.flatMap ofByte

theorem length_ofBytes (bytes : List UInt8) : (ofBytes bytes).length = 2 * bytes.length := by
  induction bytes with
  | nil => rfl
  | cons b bs ih => simp [ofBytes, ofByte] at ih ⊢; omega

end ParenLex.Text.Hex
