import Mathlib.Computability.RegularExpressions
import ParenLex.Proofs.Numeral

/-!
# Literals by longest match

The kind of a word comes from the longest literal at its head, if that is all of it. Asking for the
longest one is a question of its own, as a longer match of one pattern may stand where another
matches as well; yet it is answered with the whole word just where the whole word has the shape of a
literal.

* `matches_iff_shape`: the regular expressions, and the shapes that they are for.
* `longest?_first`: the longest literal is the first token of a lexer for the regular expressions.
* `ofFirst_eq_kind`: the first token is all of the word where a regular expression matches it.
* `ofWord_exact`: the kind of any text.
-/

namespace ParenLex

namespace Literal

/-! ### Patterns -/

/-- The pattern of a text. -/
def exactly : List Char → RegularExpression Char
  | [] => 1
  | c :: cs => .char c * exactly cs

/-- The pattern of one of some characters. -/
def oneOf : List Char → RegularExpression Char
  | [] => 0
  | c :: cs => .char c + oneOf cs

def digit : RegularExpression Char := oneOf "0123456789".toList

/-- One digit or more. -/
def digits : RegularExpression Char := digit * .star digit

/-- **The patterns of the literals.** -/
def patterns : List (Literal × RegularExpression Char) :=
  [(bool, exactly "true".toList), (bool, exactly "false".toList), (integer, digits),
    (decimal, .star digit * (.char '.' * digits))]

/-- A text is a literal if one of the patterns matches it. -/
def Matches (l : Literal) (cs : List Char) : Prop := ∃ p, (l, p) ∈ patterns ∧ cs ∈ p.matches'

/-- **What a literal looks like**: `true` or `false`, digits, or a point among digits with one at
least behind it. -/
def Shape : Literal → List Char → Prop
  | bool, cs => cs = "true".toList ∨ cs = "false".toList
  | integer, cs => cs ≠ [] ∧ ∀ c ∈ cs, isDigit c = true
  | decimal, cs => ∃ ds fs, cs = ds ++ '.' :: fs ∧ (∀ c ∈ ds, isDigit c = true) ∧ fs ≠ [] ∧
      ∀ c ∈ fs, isDigit c = true

variable {l k : Literal} {cs ds fs : List Char} {c : Char} {n : Nat}

theorem mem_exactly {text : List Char} : cs ∈ (exactly text).matches' ↔ cs = text := by
  induction text generalizing cs with
  | nil => exact Language.mem_one cs
  | cons c text ih =>
    rw [exactly, RegularExpression.matches'_mul, Language.mem_mul]
    constructor
    · rintro ⟨as, ha, bs, hb, rfl⟩
      obtain rfl : as = [c] := ha
      rw [ih.1 hb]
      rfl
    · rintro rfl
      exact ⟨[c], rfl, text, ih.2 rfl, rfl⟩

theorem mem_oneOf {chars : List Char} :
    cs ∈ (oneOf chars).matches' ↔ ∃ c ∈ chars, cs = [c] := by
  induction chars with
  | nil => simp [oneOf]
  | cons d chars ih =>
    rw [oneOf, RegularExpression.matches'_add, Language.mem_add, ih, List.exists_mem_cons_iff]
    exact Iff.rfl

/-- The digits are the ten characters. -/
theorem mem_digits_iff : c ∈ "0123456789".toList ↔ isDigit c = true := by
  constructor
  · intro h
    have hall : ∀ d ∈ "0123456789".toList, isDigit d = true := by simp [isDigit]
    exact hall c h
  · intro h
    have hnum : 48 ≤ c.toNat ∧ c.toNat ≤ 57 := by
      simpa [isDigit, Char.le_def, UInt32.le_iff_toNat_le] using h
    have hall : ∀ n ≤ 57, 48 ≤ n → Char.ofNat n ∈ "0123456789".toList := by decide
    rw [← Char.ofNat_toNat c]
    exact hall c.toNat hnum.2 hnum.1

theorem mem_digit : cs ∈ digit.matches' ↔ ∃ c, isDigit c = true ∧ cs = [c] := by
  rw [digit, mem_oneOf]
  simp only [mem_digits_iff]

theorem mem_star_digit : cs ∈ (RegularExpression.star digit).matches' ↔
    ∀ c ∈ cs, isDigit c = true := by
  rw [RegularExpression.matches'_star, Language.mem_kstar]
  constructor
  · rintro ⟨parts, rfl, hparts⟩ c hc
    obtain ⟨part, hpart, hc⟩ := List.mem_flatten.1 hc
    obtain ⟨d, hd, rfl⟩ := mem_digit.1 (hparts part hpart)
    rw [List.mem_singleton.1 hc]
    exact hd
  · intro h
    refine ⟨cs.map ([·]), by simp [← List.flatMap_def], ?_⟩
    intro part hpart
    obtain ⟨c, hc, rfl⟩ := List.mem_map.1 hpart
    exact mem_digit.2 ⟨c, h c hc, rfl⟩

theorem mem_digits : cs ∈ digits.matches' ↔ cs ≠ [] ∧ ∀ c ∈ cs, isDigit c = true := by
  rw [digits, RegularExpression.matches'_mul, Language.mem_mul]
  constructor
  · rintro ⟨as, ha, bs, hb, rfl⟩
    obtain ⟨c, hc, rfl⟩ := mem_digit.1 ha
    exact ⟨by simp, List.forall_mem_cons.2 ⟨hc, mem_star_digit.1 hb⟩⟩
  · rintro ⟨hne, h⟩
    obtain ⟨c, ds, rfl⟩ := List.exists_cons_of_ne_nil hne
    obtain ⟨hc, hds⟩ := List.forall_mem_cons.1 h
    exact ⟨[c], mem_digit.2 ⟨c, hc, rfl⟩, ds, mem_star_digit.2 hds, rfl⟩

/-- **The patterns match the texts of their shapes.** -/
theorem matches_iff_shape : l.Matches cs ↔ l.Shape cs := by
  cases l with
  | bool => simp [Matches, patterns, Shape, mem_exactly]
  | integer => simp [Matches, patterns, Shape, mem_digits]
  | decimal =>
    have hpoint : ∀ as, as ∈ (RegularExpression.char '.').matches' ↔ as = ['.'] := fun _ => Iff.rfl
    simp only [Matches, patterns, List.mem_cons, Prod.mk.injEq, reduceCtorEq, false_and, true_and,
      List.not_mem_nil, or_false, false_or, exists_eq_left, RegularExpression.matches'_mul,
      Language.mem_mul, hpoint, mem_star_digit, mem_digits, Shape]
    constructor
    · rintro ⟨ds, hds, -, ⟨fs, ⟨hne, hfs⟩, rfl⟩, rfl⟩
      exact ⟨ds, fs, rfl, hds, hne, hfs⟩
    · rintro ⟨ds, fs, rfl, hds, hne, hfs⟩
      exact ⟨ds, hds, _, ⟨fs, ⟨hne, hfs⟩, rfl⟩, rfl⟩

/-- Of the shapes, those of a boolean alone have a letter. -/
theorem e_mem_iff (h : l.Shape cs) : 'e' ∈ cs ↔ l = bool := by
  have he : ¬ isDigit 'e' = true := by decide
  cases l with
  | bool =>
    refine iff_of_true ?_ rfl
    rcases h with rfl | rfl
    · decide
    · decide
  | integer =>
    refine iff_of_false ?_ (by simp)
    intro hm
    exact he (h.2 'e' hm)
  | decimal =>
    refine iff_of_false ?_ (by simp)
    obtain ⟨ds, fs, rfl, hds, -, hfs⟩ := h
    intro hm
    rcases List.mem_append.1 hm with hm | hm
    · exact he (hds 'e' hm)
    · rcases List.mem_cons.1 hm with hm | hm
      · exact absurd hm (by decide)
      · exact he (hfs 'e' hm)

/-- Those of a decimal alone have a point. -/
theorem point_mem_iff (h : l.Shape cs) : '.' ∈ cs ↔ l = decimal := by
  cases l with
  | bool =>
    refine iff_of_false ?_ (by simp)
    rcases h with rfl | rfl
    · decide
    · decide
  | integer =>
    refine iff_of_false ?_ (by simp)
    intro hm
    exact absurd (h.2 '.' hm) (by decide)
  | decimal =>
    refine iff_of_true ?_ rfl
    obtain ⟨ds, fs, rfl, -⟩ := h
    simp

/-- **No text has two of the shapes.** -/
theorem eq_of_shape (hl : l.Shape cs) (hk : k.Shape cs) : l = k := by
  have hbool : l = bool ↔ k = bool := (e_mem_iff hl).symm.trans (e_mem_iff hk)
  have hdecimal : l = decimal ↔ k = decimal := (point_mem_iff hl).symm.trans (point_mem_iff hk)
  cases l with
  | bool => exact (hbool.1 rfl).symm
  | decimal => exact (hdecimal.1 rfl).symm
  | integer =>
    cases k with
    | bool => exact hbool.2 rfl
    | decimal => exact hdecimal.2 rfl
    | integer => rfl

/-! ### Longest matches -/

theorem digits?_eq_some (h : digits? cs = some n) :
    n = (cs.takeWhile isDigit).length ∧ cs.takeWhile isDigit ≠ [] := by
  by_cases hne : cs.takeWhile isDigit = []
  · simp [digits?, hne] at h
  · rw [digits?_of_ne_nil hne] at h
    exact ⟨(Option.some.inj h).symm, hne⟩

/-- Digits at the head of a text, with one at least, are among those found there. -/
theorem digits?_of_append (hne : ds ≠ []) (hds : ∀ c ∈ ds, isDigit c = true) (rest : List Char) :
    ∃ n, digits? (ds ++ rest) = some n ∧ ds.length ≤ n := by
  have htake : (ds ++ rest).takeWhile isDigit = ds ++ rest.takeWhile isDigit :=
    List.takeWhile_append_of_pos hds
  refine ⟨_, digits?_of_ne_nil (by simp [htake, hne]), ?_⟩
  rw [htake, List.length_append]
  omega

/-- **A match of a literal is a beginning of the text that has its shape.** -/
theorem exists_shape_of_length? (h : l.length? cs = some n) :
    ∃ w, w <+: cs ∧ w.length = n ∧ l.Shape w := by
  cases l with
  | bool =>
    simp only [length?] at h
    split at h
    · next hp =>
      obtain rfl := Option.some.inj h
      exact ⟨_, List.isPrefixOf_iff_prefix.1 hp, rfl, .inl rfl⟩
    · split at h
      · next hp =>
        obtain rfl := Option.some.inj h
        exact ⟨_, List.isPrefixOf_iff_prefix.1 hp, rfl, .inr rfl⟩
      · cases h
  | integer =>
    obtain ⟨rfl, hne⟩ := digits?_eq_some h
    exact ⟨_, List.takeWhile_prefix _, rfl, hne, fun c => List.mem_takeWhile_imp⟩
  | decimal =>
    simp only [length?] at h
    split at h
    · next rest hd =>
      obtain ⟨m, hm, rfl⟩ := Option.map_eq_some_iff.1 h
      obtain ⟨rfl, hne⟩ := digits?_eq_some hm
      refine ⟨cs.takeWhile isDigit ++ '.' :: rest.takeWhile isDigit, ?_, ?_, _, _, rfl,
        fun c => List.mem_takeWhile_imp, hne, fun c => List.mem_takeWhile_imp⟩
      · conv_rhs => rw [← List.takeWhile_append_dropWhile (p := isDigit) (l := cs), hd]
        rw [List.prefix_append_right_inj, List.cons_prefix_cons]
        exact ⟨rfl, List.takeWhile_prefix _⟩
      · rw [List.length_append, List.length_cons]
        omega
    · cases h

/-- **It is the longest that has.** -/
theorem length?_of_shape {w : List Char} (hw : w <+: cs) (h : l.Shape w) :
    ∃ n, l.length? cs = some n ∧ w.length ≤ n := by
  obtain ⟨rest, rfl⟩ := hw
  cases l with
  | bool =>
    rcases h with rfl | rfl
    · exact ⟨4, by simp [length?], Nat.le_refl 4⟩
    · exact ⟨5, by simp [length?], Nat.le_refl 5⟩
  | integer => exact digits?_of_append h.1 h.2 rest
  | decimal =>
    obtain ⟨ds, fs, rfl, hds, hne, hfs⟩ := h
    obtain ⟨n, hn, hle⟩ := digits?_of_append hne hfs rest
    have hp : ¬ isDigit '.' = true := by decide
    have htake : (ds ++ '.' :: (fs ++ rest)).takeWhile isDigit = ds := by
      rw [List.takeWhile_append_of_pos hds, List.takeWhile_cons_of_neg hp, List.append_nil]
    have hdrop : (ds ++ '.' :: (fs ++ rest)).dropWhile isDigit = '.' :: (fs ++ rest) := by
      rw [List.dropWhile_append_of_pos hds, List.dropWhile_cons_of_neg hp]
    refine ⟨ds.length + 1 + n, ?_, ?_⟩
    · rw [List.append_assoc, List.cons_append, length?, htake, hdrop]
      simp only [hn, Option.map_some]
    · rw [List.length_append, List.length_cons]
      omega

/-! ### First tokens -/

/-- **The first token of a lexer for the patterns**: the longest beginning of the text that one of
them matches, and none where none matches any. -/
def First (cs : List Char) : Option (Literal × Nat) → Prop
  | some (l, n) => (∃ w, w <+: cs ∧ w.length = n ∧ l.Matches w) ∧
      ∀ k w, w <+: cs → Matches k w → w.length ≤ n
  | none => ∀ k w, w <+: cs → ¬ Matches k w

/-- The longer of two matches is one of them. -/
theorem longer_eq_some {a b : Option (Literal × Nat)} {x : Literal × Nat}
    (h : longer a b = some x) : a = some x ∨ b = some x := by
  unfold longer at h
  split at h
  · split at h
    · exact .inr h
    · exact .inl h
  · exact .inr h
  · exact .inl h

/-- It is as long as each of them. -/
theorem le_longer {a b : Option (Literal × Nat)} {x : Literal × Nat}
    (h : a = some x ∨ b = some x) : ∃ y, longer a b = some y ∧ x.2 ≤ y.2 := by
  cases a with
  | none =>
    rcases h with h | rfl
    · cases h
    · exact ⟨x, rfl, Nat.le_refl _⟩
  | some u =>
    cases b with
    | none =>
      rcases h with h | h
      · exact ⟨u, rfl, by rw [Option.some.inj h]⟩
      · cases h
    | some v =>
      unfold longer
      by_cases hlt : u.2 < v.2
      · refine ⟨v, if_pos hlt, ?_⟩
        rcases h with h | h
        · rw [← Option.some.inj h]
          omega
        · rw [Option.some.inj h]
      · refine ⟨u, if_neg hlt, ?_⟩
        rcases h with h | h
        · rw [Option.some.inj h]
        · rw [← Option.some.inj h]
          omega

/-- The longest of some matches is one of them. -/
theorem mem_of_foldl_longer {os : List (Option (Literal × Nat))} {a : Option (Literal × Nat)}
    {x : Literal × Nat} (h : os.foldl longer a = some x) : a = some x ∨ some x ∈ os := by
  induction os generalizing a with
  | nil => exact .inl h
  | cons o os ih =>
    rcases ih h with h | h
    · rcases longer_eq_some h with h | h
      · exact .inl h
      · exact .inr (List.mem_cons.2 (.inl h.symm))
    · exact .inr (List.mem_cons_of_mem _ h)

/-- It is as long as each of them. -/
theorem le_foldl_longer {os : List (Option (Literal × Nat))} {a : Option (Literal × Nat)}
    {x : Literal × Nat} (h : a = some x ∨ some x ∈ os) :
    ∃ y, os.foldl longer a = some y ∧ x.2 ≤ y.2 := by
  induction os generalizing a x with
  | nil =>
    rcases h with h | h
    · exact ⟨x, h, Nat.le_refl _⟩
    · cases h
  | cons o os ih =>
    have hstep : (∃ y, longer a o = some y ∧ x.2 ≤ y.2) ∨ some x ∈ os := by
      rcases h with h | h
      · exact .inl (le_longer (.inl h))
      · rcases List.mem_cons.1 h with h | h
        · exact .inl (le_longer (.inr h.symm))
        · exact .inr h
    rcases hstep with ⟨y, hy, hxy⟩ | h
    · obtain ⟨z, hz, hyz⟩ := ih (.inl hy)
      exact ⟨z, hz, hxy.trans hyz⟩
    · exact ih (.inr h)

theorem mem_all (l : Literal) : l ∈ all := by cases l <;> decide

/-- The matches compared are those of the literals. -/
theorem some_mem_iff {x : Literal × Nat} :
    some x ∈ all.map (fun l => (l.length? cs).map (l, ·)) ↔ x.1.length? cs = some x.2 := by
  rw [List.mem_map]
  constructor
  · rintro ⟨l, -, h⟩
    obtain ⟨n, hn, rfl⟩ := Option.map_eq_some_iff.1 h
    exact hn
  · intro h
    refine ⟨x.1, mem_all x.1, ?_⟩
    rw [h]
    rfl

/-- **The longest literal at the head of a text is the first token.** -/
theorem longest?_first (cs : List Char) : First cs (longest? cs) := by
  have hle : ∀ k w, w <+: cs → Matches k w → ∃ y, longest? cs = some y ∧ w.length ≤ y.2 := by
    intro k w hw hm
    obtain ⟨n, hn, hwn⟩ := length?_of_shape hw (matches_iff_shape.1 hm)
    have hmem := some_mem_iff (x := (k, n)).2 hn
    obtain ⟨y, hy, hny⟩ := le_foldl_longer (a := none) (.inr hmem)
    exact ⟨y, hy, hwn.trans hny⟩
  cases ho : longest? cs with
  | none =>
    intro k w hw hm
    obtain ⟨y, hy, -⟩ := hle k w hw hm
    rw [ho] at hy
    cases hy
  | some x =>
    obtain ⟨l, n⟩ := x
    refine ⟨?_, ?_⟩
    · rcases mem_of_foldl_longer ho with h | h
      · cases h
      · obtain ⟨w, hw, hn, hs⟩ := exists_shape_of_length? (some_mem_iff.1 h)
        exact ⟨w, hw, hn, matches_iff_shape.2 hs⟩
    · intro k w hw hm
      obtain ⟨y, hy, hwy⟩ := hle k w hw hm
      rw [ho] at hy
      rw [← Option.some.inj hy] at hwy
      exact hwy

theorem kind_injective (h : l.kind = k.kind) : l = k := by
  revert h
  cases l <;> cases k <;> decide

theorem kind_ne_identifier (l : Literal) : l.kind ≠ .identifier := by
  cases l <;> decide

end Literal

namespace Kind

variable {cs : List Char} {first : Option (Literal × Nat)} {l : Literal}

/-- The kind of a word by the first token of a lexer: that of the token if it spans the word. -/
def ofFirst (cs : List Char) : Option (Literal × Nat) → Kind
  | some (l, n) => if n = cs.length then l.kind else .identifier
  | none => .identifier

/-- **The first token spans the word just where the word has the shape of a literal.** -/
theorem ofFirst_eq_kind (h : Literal.First cs first) : ofFirst cs first = l.kind ↔ l.Shape cs := by
  cases first with
  | none =>
    refine iff_of_false (Ne.symm l.kind_ne_identifier) ?_
    intro hs
    exact h l cs (List.prefix_refl cs) (Literal.matches_iff_shape.2 hs)
  | some x =>
    obtain ⟨k, n⟩ := x
    obtain ⟨⟨w, hw, hn, hm⟩, hmax⟩ := h
    have hk : k.Shape w := Literal.matches_iff_shape.1 hm
    rw [ofFirst]
    constructor
    · intro hl
      split at hl
      · next hspan =>
        rw [← Literal.kind_injective hl, ← hw.eq_of_length (hn.trans hspan)]
        exact hk
      · exact absurd hl.symm l.kind_ne_identifier
    · intro hs
      -- the word itself is a match, so the longest is no shorter
      have hle := hmax l cs (List.prefix_refl cs) (Literal.matches_iff_shape.2 hs)
      have hspan : n = cs.length := by
        have := hw.length_le
        omega
      rw [if_pos hspan]
      rw [hw.eq_of_length (hn.trans hspan)] at hk
      rw [Literal.eq_of_shape hk hs]

theorem ofFirst_eq_identifier (h : Literal.First cs first) :
    ofFirst cs first = .identifier ↔ ∀ l, ¬ Literal.Shape l cs := by
  constructor
  · intro hi l hs
    rw [(ofFirst_eq_kind h).2 hs] at hi
    exact l.kind_ne_identifier hi
  · intro hnone
    by_contra hne
    obtain ⟨l, hl⟩ : ∃ l : Literal, ofFirst cs first = l.kind := by
      unfold ofFirst at hne ⊢
      split
      · split
        · exact ⟨_, rfl⟩
        · next hn => exact absurd (if_neg hn) hne
      · exact absurd rfl hne
    exact hnone l ((ofFirst_eq_kind h).1 hl)

/-- **Classification by longest match is classification of the whole text.** A text has the kind of
a literal if and only if it has its shape, and it is an identifier if it has none. The longest
literal found at its head is the first token of a lexer for the patterns, and with any such token the
kind is the same. -/
theorem ofWord_exact (cs : List Char) :
    (∀ l : Literal, ofWord cs = l.kind ↔ l.Shape cs) ∧
      (ofWord cs = .identifier ↔ ∀ l, ¬ Literal.Shape l cs) ∧
      Literal.First cs (Literal.longest? cs) ∧
      ∀ first, Literal.First cs first → ofFirst cs first = ofWord cs := by
  have hfirst := Literal.longest?_first cs
  have hword : ofWord cs = ofFirst cs (Literal.longest? cs) := rfl
  refine ⟨?_, ?_, hfirst, ?_⟩
  · intro l
    rw [hword]
    exact ofFirst_eq_kind hfirst
  · rw [hword]
    exact ofFirst_eq_identifier hfirst
  · intro first h
    rw [hword]
    by_cases hs : ∃ l, Literal.Shape l cs
    · obtain ⟨l, hs⟩ := hs
      rw [(ofFirst_eq_kind h).2 hs, (ofFirst_eq_kind hfirst).2 hs]
    · have hnone : ∀ l, ¬ Literal.Shape l cs := not_exists.1 hs
      rw [(ofFirst_eq_identifier h).2 hnone, (ofFirst_eq_identifier hfirst).2 hnone]

/-- A longer match of another pattern, and matches that are not all of the text. -/
example : ["12.5", "12", "1.2.3", "1.", "truely", ".5", ""].map (ofWord ·.toList) =
    [.decimal, .integer, .identifier, .identifier, .identifier, .decimal, .identifier] := by
  decide

end Kind

end ParenLex
