import ParenLex.Proofs.Quoting
import ParenLex.Token

/-!
# Shown tokens are read back

The line and the column of a shown token are digits, its kind is one of a few names, and each ends
at the first separator behind it. The text comes last, between quotes, where it may hold the
separators too.

* `field?_append`: a field without separators ends at the first one.
* `read?_displayBy`: all but the offset is read back, whichever characters are hidden in the text.
* `display_determines`: tokens that are shown alike differ in their offsets at most.
-/

namespace ParenLex

theorem Kind.ofName?_name (k : Kind) : ofName? k.name = some k := by
  have hall : ∀ k ∈ all, ofName? k.name = some k := by decide
  exact hall k k.mem_all

theorem Kind.space_not_mem_name (k : Kind) : ' ' ∉ k.name.toList := by
  cases k <;> decide

/-- The part before the first separator, with the part behind it. -/
def field? (separator : Char) (cs : List Char) : Option (List Char × List Char) :=
  match cs.dropWhile (· ≠ separator) with
  | [] => none
  | _ :: rest => some (cs.takeWhile (· ≠ separator), rest)

/-- **A field without separators ends at the first one.** -/
theorem field?_append {separator : Char} {cs : List Char} (h : separator ∉ cs) (rest : List Char) :
    field? separator (cs ++ separator :: rest) = some (cs, rest) := by
  have hcs : ∀ c ∈ cs, decide (c ≠ separator) = true := by
    intro c hc
    exact decide_eq_true fun he => h (he ▸ hc)
  have hdrop : (cs ++ separator :: rest).dropWhile (· ≠ separator) = separator :: rest := by
    rw [List.dropWhile_append_of_pos hcs, List.dropWhile_cons_of_neg (by simp)]
  have htake : (cs ++ separator :: rest).takeWhile (· ≠ separator) = cs := by
    rw [List.takeWhile_append_of_pos hcs, List.takeWhile_cons_of_neg (by simp), List.append_nil]
  rw [field?, hdrop, htake]

/-- A separator that is no digit is in no number. -/
theorem not_mem_toDigits {c : Char} (hc : c.isDigit = false) (n : Nat) : c ∉ Nat.toDigits 10 n := by
  intro h
  have hdigit := Nat.isDigit_of_mem_toDigits (by omega) (by omega) h
  simp [hc] at hdigit

namespace Token

/-- What is shown of a token. -/
structure Shown where
  line : Nat
  column : Nat
  kind : Kind
  text : String
  deriving DecidableEq

def shown (t : Token) : Shown := ⟨t.position.line, t.position.column, t.kind, t.text⟩

/-- The token as it is shown when these characters are hidden. -/
def displayBy (hidden : Char → Bool) (t : Token) : String :=
  t.position.display ++ " " ++ t.kind.name ++ " " ++
    String.ofList (Text.Quoted.encode hidden t.text.toList)

theorem displayBy_isHidden (t : Token) : t.displayBy isHidden = t.display := rfl

/-- What a shown token says. -/
def read? (s : String) : Option Shown := do
  let (line, cs) ← field? ':' s.toList
  let (column, cs) ← field? ' ' cs
  let (kind, cs) ← field? ' ' cs
  let kind ← Kind.ofName? (String.ofList kind)
  let text ← Text.Quoted.decode? cs
  return ⟨Nat.ofDigitChars 10 line 0, Nat.ofDigitChars 10 column 0, kind, String.ofList text⟩

theorem toList_displayBy (hidden : Char → Bool) (t : Token) : (t.displayBy hidden).toList =
    Nat.toDigits 10 t.position.line ++ ':' :: (Nat.toDigits 10 t.position.column ++
      ' ' :: (t.kind.name.toList ++ ' ' :: Text.Quoted.encode hidden t.text.toList)) := by
  simp [displayBy, Position.display]

/-- **All but the offset is read back**, whichever characters are hidden in the text. -/
theorem read?_displayBy (hidden : Char → Bool) (t : Token) :
    read? (t.displayBy hidden) = some t.shown := by
  have hline : ':' ∉ Nat.toDigits 10 t.position.line := not_mem_toDigits (by decide) _
  have hcolumn : ' ' ∉ Nat.toDigits 10 t.position.column := not_mem_toDigits (by decide) _
  have hkind := t.kind.space_not_mem_name
  simp [read?, toList_displayBy, field?_append hline, field?_append hcolumn, field?_append hkind,
    Kind.ofName?_name, Text.Quoted.decode?_encode, shown]

example : read? "2:1 Identifier \"foo\"" = some ⟨2, 1, .identifier, "foo"⟩ := by decide

variable {hidden hidden' : Char → Bool} {t u : Token}

theorem shown_of_displayBy (h : t.displayBy hidden = u.displayBy hidden') : t.shown = u.shown := by
  have hread := congrArg read? h
  rw [read?_displayBy, read?_displayBy] at hread
  exact Option.some.inj hread

/-- **A shown token determines the token, but for its offset**: tokens are shown alike exactly when
their lines, columns, kinds and texts are equal. Which characters are hidden makes no difference:
those hidden in the one may even be others than those hidden in the other. -/
theorem display_determines (t u : Token) :
    (t.display = u.display ↔ t.position.line = u.position.line ∧
      t.position.column = u.position.column ∧ t.kind = u.kind ∧ t.text = u.text) ∧
    ∀ hidden hidden' : Char → Bool, t.displayBy hidden = u.displayBy hidden' →
      t.position.line = u.position.line ∧ t.position.column = u.position.column ∧
        t.kind = u.kind ∧ t.text = u.text := by
  have hfields : ∀ hidden hidden' : Char → Bool, t.displayBy hidden = u.displayBy hidden' →
      t.position.line = u.position.line ∧ t.position.column = u.position.column ∧
        t.kind = u.kind ∧ t.text = u.text := by
    intro hidden hidden' h
    simpa only [shown, Shown.mk.injEq] using shown_of_displayBy h
  refine ⟨⟨fun h => ?_, ?_⟩, hfields⟩
  · rw [← displayBy_isHidden, ← displayBy_isHidden] at h
    exact hfields isHidden isHidden h
  · -- the offset is shown nowhere
    rintro ⟨hline, hcolumn, hkind, htext⟩
    simp only [display, Position.display, hline, hcolumn, hkind, htext]

/-- A tab has an escape of its own, hidden or not, and what only looks like one of its escapes is
written as something else. -/
theorem display_determines_tab :
    let t : Token := ⟨.comment, ";\t\"\\u\x7b9\x7d", ⟨2, 7, 40⟩⟩
    let u : Token := ⟨.comment, ";\t\"\\u\x7b9\x7d", ⟨2, 7, 99⟩⟩
    t.displayBy (fun _ => false) = u.displayBy (· == '\t') ∧ t.position.line = u.position.line ∧
      t.position.column = u.position.column ∧ t.kind = u.kind ∧ t.text = u.text := by
  intro t u
  have h : t.displayBy (fun _ => false) = u.displayBy (· == '\t') := by decide
  exact ⟨h, (display_determines t u).2 _ _ h⟩

end Token

end ParenLex
