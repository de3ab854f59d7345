import Mathlib.Data.List.TakeWhile
import Mathlib.Tactic
import ParenLex.Word

/-!
# Numerals are words

A numeral is read in three runs, each with its own idea of what it has found. The text read is
nevertheless the word that stands there, and the kind is the kind of that word.

* `text_read`: the three runs make up the longest run of word characters.
* `kind_read`: the kind found on the way is that of the whole text.
-/

namespace ParenLex

namespace Literal

theorem digits?_of_ne_nil {cs : List Char} (h : cs.takeWhile isDigit ≠ []) :
    digits? cs = some (cs.takeWhile isDigit).length := by
  have := List.length_pos_iff.2 h
  unfold digits?
  split <;> simp_all

/-- No boolean begins with a digit. -/
theorem length?_bool_of_isDigit {c : Char} {cs : List Char} (h : isDigit c = true) :
    bool.length? (c :: cs) = none := by
  have ht : ('t' == c) = false := by
    rw [beq_eq_false_iff_ne]; rintro rfl; exact absurd h (by decide)
  have hf : ('f' == c) = false := by
    rw [beq_eq_false_iff_ne]; rintro rfl; exact absurd h (by decide)
  simp [length?, List.isPrefixOf, ht, hf]

end Literal

namespace Numeral

/-- The numeral at the head of a text. -/
def read (cs : List Char) : Numeral :=
  match cs.dropWhile isDigit with
  | '.' :: ds =>
    ⟨cs.takeWhile isDigit, some (ds.takeWhile isDigit), (ds.dropWhile isDigit).takeWhile isWordChar⟩
  | ds => ⟨cs.takeWhile isDigit, none, ds.takeWhile isWordChar⟩

variable {cs ds : List Char}

theorem read_of_eq (h : cs.dropWhile isDigit = '.' :: ds) : read cs =
    ⟨cs.takeWhile isDigit, some (ds.takeWhile isDigit),
      (ds.dropWhile isDigit).takeWhile isWordChar⟩ := by
  simp only [read, h]

theorem read_of_ne (h : (cs.dropWhile isDigit).head? ≠ some '.') : read cs =
    ⟨cs.takeWhile isDigit, none, (cs.dropWhile isDigit).takeWhile isWordChar⟩ := by
  rw [read]
  split
  · next ds hd => simp [hd] at h
  · rfl

theorem takeWhile_isWordChar (cs : List Char) : cs.takeWhile isWordChar =
    cs.takeWhile isDigit ++ (cs.dropWhile isDigit).takeWhile isWordChar := by
  conv_lhs => rw [← List.takeWhile_append_dropWhile (p := isDigit) (l := cs)]
  exact List.takeWhile_append_of_pos fun c hc => isWordChar_of_isDigit (List.mem_takeWhile_imp hc)

/-- **The text of a numeral is the word that stands there.** -/
theorem text_read (cs : List Char) : (read cs).text = cs.takeWhile isWordChar := by
  rw [takeWhile_isWordChar]
  unfold read
  split
  · next ds h =>
    have hp : isWordChar '.' = true := by decide
    rw [h, List.takeWhile_cons_of_pos hp, takeWhile_isWordChar ds]
    simp [text]
  · rfl

/-! ### Kinds -/

variable {c : Char}

theorem longest?_of_isDigit (hc : isDigit c = true) :
    Literal.longest? (c :: cs) = Literal.longer
      ((Literal.integer.length? (c :: cs)).map (.integer, ·))
      ((Literal.decimal.length? (c :: cs)).map (.decimal, ·)) := by
  simp [Literal.longest?, Literal.all, Literal.length?_bool_of_isDigit hc, Literal.longer]

theorem ofWord_digits (hc : isDigit c = true) (h : ∀ d ∈ cs, isDigit d = true) :
    Kind.ofWord (c :: cs) = .integer := by
  have h' : ∀ d ∈ c :: cs, isDigit d = true := List.forall_mem_cons.2 ⟨hc, h⟩
  have ht := List.takeWhile_eq_self_iff.2 h'
  have hi : Literal.integer.length? (c :: cs) = some (c :: cs).length := by
    rw [Literal.length?, Literal.digits?_of_ne_nil (by simp [hc]), ht]
  have hd : Literal.decimal.length? (c :: cs) = none := by
    simp [Literal.length?, List.dropWhile_eq_nil_iff.2 h']
  rw [Kind.ofWord, longest?_of_isDigit hc, hi, hd]
  simp [Literal.longer, Literal.kind]

/-- What the two numeric shapes make of digits and a point. -/
theorem length?_point (hc : isDigit c = true) (h : ∀ d ∈ cs, isDigit d = true) (ds : List Char) :
    Literal.integer.length? (c :: (cs ++ '.' :: ds)) = some (cs.length + 1) ∧
      Literal.decimal.length? (c :: (cs ++ '.' :: ds)) =
        (Literal.digits? ds).map (cs.length + 2 + ·) := by
  have h' : ∀ d ∈ c :: cs, isDigit d = true := List.forall_mem_cons.2 ⟨hc, h⟩
  have hp : ¬ isDigit '.' = true := by decide
  have ht : (c :: (cs ++ '.' :: ds)).takeWhile isDigit = c :: cs := by
    rw [← List.cons_append, List.takeWhile_append_of_pos h', List.takeWhile_cons_of_neg hp,
      List.append_nil]
  have hd : (c :: (cs ++ '.' :: ds)).dropWhile isDigit = '.' :: ds := by
    rw [← List.cons_append, List.dropWhile_append_of_pos h', List.dropWhile_cons_of_neg hp]
  refine ⟨?_, ?_⟩
  · rw [Literal.length?, Literal.digits?_of_ne_nil (by simp [hc]), ht]; rfl
  · simp only [Literal.length?, hd, ht]; rfl

theorem ofWord_point (hc : isDigit c = true) (h : ∀ d ∈ cs, isDigit d = true) :
    Kind.ofWord (c :: (cs ++ ['.'])) = .identifier := by
  obtain ⟨hi, hd⟩ := length?_point hc h []
  rw [Kind.ofWord, longest?_of_isDigit hc, hi, hd]
  simp [Literal.longer, Literal.digits?]

theorem ofWord_decimal (hc : isDigit c = true) (h : ∀ d ∈ cs, isDigit d = true)
    (hne : ds ≠ []) (hds : ∀ d ∈ ds, isDigit d = true) :
    Kind.ofWord (c :: (cs ++ '.' :: ds)) = .decimal := by
  obtain ⟨hi, hd⟩ := length?_point hc h ds
  have ht := List.takeWhile_eq_self_iff.2 hds
  have hlt : cs.length + 1 < cs.length + 2 + ds.length := by omega
  have hlen : cs.length + 2 + ds.length = (c :: (cs ++ '.' :: ds)).length := by simp; omega
  rw [Kind.ofWord, longest?_of_isDigit hc, hi, hd, Literal.digits?_of_ne_nil (ht.symm ▸ hne), ht]
  simp only [Option.map_some, Literal.longer, if_pos hlt, if_pos hlen]
  rfl

/-- **The kind found on the way is the kind of the whole text.** -/
theorem kind_read (hc : isDigit c = true) :
    (read (c :: cs)).kind = .ofWord (read (c :: cs)).text := by
  have h : ∀ d ∈ cs.takeWhile isDigit, isDigit d = true := fun d => List.mem_takeWhile_imp
  unfold read
  rw [List.takeWhile_cons_of_pos hc]
  split
  · next ds hd =>
    rcases hf : ds.takeWhile isDigit with _ | ⟨d, fs⟩
    · rcases hr : (ds.dropWhile isDigit).takeWhile isWordChar with _ | ⟨r, rs⟩
      · simpa [kind, text] using (ofWord_point hc h).symm
      · rfl
    · rcases hr : (ds.dropWhile isDigit).takeWhile isWordChar with _ | ⟨r, rs⟩
      · have hfs : ∀ x ∈ d :: fs, isDigit x = true := by
          rw [← hf]; exact fun x => List.mem_takeWhile_imp
        simpa [kind, text] using (ofWord_decimal hc h (by simp) hfs).symm
      · rfl
  · next hd =>
    rcases hr : ((c :: cs).dropWhile isDigit).takeWhile isWordChar with _ | ⟨r, rs⟩
    · simpa [kind, text] using (ofWord_digits hc h).symm
    · rfl

end Numeral

end ParenLex
