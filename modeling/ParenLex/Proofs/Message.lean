import Mathlib.Tactic
import ParenLex.LexError

/-!
# Messages of errors

Hexadecimal text is read back as the bytes that it shows, and a message as the obstacle that it
reports: neither leaves anything out.

* `message_injective`: different obstacles have different messages.
-/

namespace ParenLex

namespace Text.Hex

theorem digit_injective : ∀ m < 16, ∀ n < 16, digit m = digit n → m = n := by decide

theorem ofByte_injective : Function.Injective ofByte := by
  intro a b h
  obtain ⟨h1, h⟩ := List.cons.inj h
  obtain ⟨h2, -⟩ := List.cons.inj h
  have ha := a.toNat_lt
  have hb := b.toNat_lt
  have h1 := digit_injective _ (by omega) _ (by omega) h1
  have h2 := digit_injective _ (by omega) _ (by omega) h2
  exact UInt8.toNat_inj.1 (by omega)

/-- **The bytes can be read back.** -/
theorem ofBytes_injective : Function.Injective ofBytes := by
  intro as
  induction as with
  | nil =>
    intro bs h
    have hl := congrArg List.length h
    rw [length_ofBytes, length_ofBytes] at hl
    exact (List.eq_nil_of_length_eq_zero (by simpa using hl.symm)).symm
  | cons a as ih =>
    rintro (_ | ⟨b, bs⟩) h
    · cases h
    · obtain ⟨h1, h2⟩ := List.append_inj h rfl
      rw [ofByte_injective h1, ih h2]

end Text.Hex

namespace LexError

theorem length_message (o : LexError) : o.message.length = match o with
    | character _ => 12
    | bytes bs => 21 + 2 * bs.length
    | endOfInput => 14 := by
  cases o with
  | character c =>
    have h1 : "Unexpected ".length = 11 := by decide
    have h2 : c.toString.length = 1 := String.length_singleton
    exact (String.length_append _ _).trans (congrArg₂ (· + ·) h1 h2)
  | bytes bs =>
    have h1 : "Unexpected sequence: ".length = 21 := by decide
    have h2 : (String.ofList (Text.Hex.ofBytes bs)).length = 2 * bs.length := by
      rw [String.length_ofList, Text.Hex.length_ofBytes]
    exact (String.length_append _ _).trans (congrArg₂ (· + ·) h1 h2)
  | endOfInput =>
    show "Unexpected EOF".length = 14
    decide

theorem message_ne (o : LexError) : o.message ≠ "" := by
  intro h
  have hl := o.length_message
  rw [h] at hl
  cases o
  · cases hl
  · simp only [String.length_empty] at hl
    omega
  · cases hl

/-- **Different obstacles have different messages.** -/
theorem message_injective : Function.Injective message := by
  intro o o' h
  have hl := o.length_message
  rw [h, o'.length_message] at hl
  cases o <;> cases o'
  case character.character c d =>
    have hs : c.toString = d.toString := (String.append_right_inj _).1 h
    have hc := congrArg String.toList hs
    rw [Char.toString, Char.toString, String.toList_singleton, String.toList_singleton] at hc
    rw [(List.cons.inj hc).1]
  case bytes.bytes bs bs' =>
    have hs : String.ofList _ = String.ofList _ := (String.append_right_inj _).1 h
    rw [Text.Hex.ofBytes_injective (String.ofList_injective hs)]
  case endOfInput.endOfInput => rfl
  all_goals
    simp only at hl
    omega

variable {o : LexError}

theorem message_eq_endOfInput : o.message = "Unexpected EOF" ↔ o = endOfInput :=
  ⟨fun h => message_injective h, fun h => h ▸ rfl⟩

theorem message_eq_closeParen : o.message = "Unexpected )" ↔ o = character ')' := by
  have hm : (character ')').message = "Unexpected )" := by decide
  exact ⟨fun h => message_injective (h.trans hm.symm), fun h => h ▸ hm⟩

end LexError

end ParenLex
