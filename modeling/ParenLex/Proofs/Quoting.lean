import Mathlib.Tactic
import ParenLex.Text.Quoted

/-!
# Quoted text is read back

The text between two quotes is read one character at a time, with what an escape has said so far.
The reader does not know which characters were hidden: a backslash tells it that an escape follows,
and each escape shows where it ends.

* `unquote?_toDigits`: digits are read as the code point that they write.
* `unquote?_escape`: an escape is read as the character that it stands for.
* `decode?_encode`: a quoted text is read as that text, whichever characters are hidden in it.
-/

namespace ParenLex.Text.Quoted

/-- Where a reader is: between two characters, behind a backslash, or among the digits of a code
point, with the number that those before it write. -/
inductive Spot
  | between
  | escape
  | digits (n : Nat)

/-- The character that a backslash and this one stand for. -/
def ofShort? : Char → Option Char
  | '"' => some '"'
  | '\\' => some '\\'
  | 't' => some '\t'
  | 'r' => some '\r'
  | 'n' => some '\n'
  | '0' => some '\x00'
  | _ => none

/-- The value of a hexadecimal digit in lower case. -/
def hexDigit? (c : Char) : Option Nat := (List.range 16).find? fun d => Nat.digitChar d == c

/-- The text up to the closing quote, which must be the last character. -/
def unquote? : Spot → List Char → Option (List Char)
  | _, [] => none
  | .between, c :: cs =>
    if c = '"' then if cs.isEmpty then some [] else none
    else if c = '\\' then unquote? .escape cs
    else (unquote? .between cs).map (c :: ·)
  | .escape, 'u' :: '\x7b' :: cs => unquote? (.digits 0) cs
  | .escape, c :: cs => (ofShort? c).bind fun d => (unquote? .between cs).map (d :: ·)
  | .digits n, c :: cs =>
    if c = '\x7d' then (unquote? .between cs).map (Char.ofNat n :: ·)
    else (hexDigit? c).bind fun d => unquote? (.digits (16 * n + d)) cs

/-- The text of a quoted text. -/
def decode? : List Char → Option (List Char)
  | '"' :: cs => unquote? .between cs
  | _ => none

/-! ### Escapes -/

theorem hexDigit?_digitChar : ∀ d < 16, hexDigit? (Nat.digitChar d) = some d := by decide

theorem digitChar_ne : ∀ d < 16, Nat.digitChar d ≠ '\x7d' := by decide

theorem unquote?_digitChar {d : Nat} (hd : d < 16) (n : Nat) (cs : List Char) :
    unquote? (.digits n) (Nat.digitChar d :: cs) = unquote? (.digits (16 * n + d)) cs := by
  rw [unquote?, if_neg (digitChar_ne d hd), hexDigit?_digitChar d hd, Option.bind_some]

/-- **Digits are read as the code point that they write.** -/
theorem unquote?_toDigits (n : Nat) (cs : List Char) :
    unquote? (.digits 0) (Nat.toDigits 16 n ++ cs) = unquote? (.digits n) cs := by
  induction n using Nat.strong_induction_on generalizing cs with
  | _ n ih =>
    rcases Nat.lt_or_ge n 16 with hn | hn
    · rw [Nat.toDigits_of_lt_base hn, List.singleton_append, unquote?_digitChar hn, Nat.mul_zero,
        Nat.zero_add]
    · -- the last digit is read behind those of `n / 16`
      have hlast : n % 16 < 16 := Nat.mod_lt n (by omega)
      rw [Nat.toDigits_of_base_le (by omega) hn, List.append_assoc, List.singleton_append,
        ih (n / 16) (by omega), unquote?_digitChar hlast, Nat.div_add_mod]

/-- **An escape is read as the character that it stands for.** -/
theorem unquote?_escape (hidden : Char → Bool) (c : Char) (cs : List Char) :
    unquote? .between (escape hidden c ++ cs) = (unquote? .between cs).map (c :: ·) := by
  unfold escape
  split_ifs with hquote hslash htab hreturn hfeed hnul hhidden
  · subst hquote; rfl
  · subst hslash; rfl
  · subst htab; rfl
  · subst hreturn; rfl
  · subst hfeed; rfl
  · subst hnul; rfl
  · have hopen : unquote? .between
        (['\\', 'u', '\x7b'] ++ Nat.toDigits 16 c.toNat ++ ['\x7d'] ++ cs) =
        unquote? (.digits 0) (Nat.toDigits 16 c.toNat ++ '\x7d' :: cs) := by
      simp [unquote?]
    rw [hopen, unquote?_toDigits, unquote?, if_pos rfl, Char.ofNat_toNat]
  · rw [List.singleton_append, unquote?, if_neg hquote, if_neg hslash]

/-! ### Texts -/

theorem unquote?_flatMap (hidden : Char → Bool) (cs : List Char) :
    unquote? .between (cs.flatMap (escape hidden) ++ ['"']) = some cs := by
  induction cs with
  | nil => rfl
  | cons c cs ih => rw [List.flatMap_cons, List.append_assoc, unquote?_escape, ih, Option.map_some]

/-- **A quoted text is read as that text**, whichever characters are hidden in it. -/
theorem decode?_encode (hidden : Char → Bool) (cs : List Char) :
    decode? (encode hidden cs) = some cs :=
  unquote?_flatMap hidden cs

end ParenLex.Text.Quoted
