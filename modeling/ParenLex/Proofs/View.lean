import ParenLex.Lexer.Basic
import ParenLex.Proofs.Lookahead
import ParenLex.Proofs.Numeral
import ParenLex.Proofs.Place

/-!
# A lexer over a list of characters

What a lexer does next depends on its reader only through the characters that it stands before and
how they end. A view has those in place of the reader, and steps as the lexer does; where the lexer
reads a number in parts, the view takes a word.

* `step_view`: each step of a lexer is the step of its view.
-/

namespace ParenLex

/-- What stands at the end of the characters, as an obstacle. -/
def Feed.Ending.error (e : Ending) : LexError :=
  if e.bytes = [] then .endOfInput else .bytes e.bytes

/-- A lexer with the characters to come in place of its reader; `here` is where the reader is, and
`mark` where the last token ended. -/
structure View where
  ahead : List Char
  ending : Feed.Ending
  mark : Place
  here : Place
  depth : Nat

namespace View

/-- The mode between tokens. -/
def between (v : View) : Mode := if v.depth = 0 then .text else .insideParen

/-- What stands in the way of the next token. -/
def obstacle (v : View) : LexError :=
  match v.ahead with
  | c :: _ => .character c
  | [] => v.ending.error

def goto (v : View) (m : Mode) : Step × View := (⟨none, .proceed m⟩, v)

def fail (v : View) (e : LexError) : Step × View :=
  (⟨some (.error e.message v.mark.position), .halt .failed⟩, v)

/-- The view after the text that comes next. -/
def read (v : View) (text : List Char) : View :=
  { v with ahead := v.ahead.drop text.length, here := v.here.advance text }

/-- A token of the text that comes next. -/
def take (v : View) (k : Kind) (text : List Char) (m : Mode) : Step × View :=
  (⟨some ⟨k, String.ofList text, v.mark.position⟩, .proceed m⟩,
    { v.read text with mark := (v.read text).here })

/-- The longest run of characters in `p`, if there is one. -/
def run (v : View) (p : Char → Bool) (k : List Char → Kind) (m : Mode) : Step × View :=
  match v.ahead.takeWhile p with
  | [] => v.fail v.obstacle
  | c :: cs => v.take (k (c :: cs)) (c :: cs) m

/-- One step from a mode. -/
def step (v : View) : Mode → Step × View
  | .text =>
    match v.ahead with
    | [] => if v.ending.bytes = [] then (⟨none, .halt .exhausted⟩, v) else v.fail v.ending.error
    | c :: _ =>
      match Kind.ofChar c with
      | .openParen => v.goto .openParen
      | .comment => v.goto .comment
      | .whitespace => v.goto .whitespace
      | _ => v.fail (.bytes (String.utf8EncodeChar c))
  | .insideParen =>
    if v.depth = 0 then v.goto .text
    else
      match v.ahead with
      | [] => v.fail v.obstacle
      | c :: _ =>
        if isDigit c then v.goto .number
        else if isWordChar c then v.goto .identifier
        else
          match Kind.ofChar c with
          | .closeParen => v.goto .closeParen
          | .openParen => v.goto .openParen
          | .whitespace => v.goto .whitespace
          | .comment => v.goto .comment
          | _ => v.fail v.obstacle
  | .openParen =>
    if v.ahead.head? = some '(' then
      if v.depth < counterMax then
        { v with depth := v.depth + 1 }.take .openParen ['('] .insideParen
      else
        (⟨none, .fault .overflow⟩, { v with ahead := v.ahead.tail, here := v.here.advance ['('] })
    else v.fail v.obstacle
  | .closeParen =>
    if v.depth = 0 then v.fail (.character ')')
    else if v.ahead.head? = some ')' then
      { v with depth := v.depth - 1 }.take .closeParen [')'] .insideParen
    else v.fail v.obstacle
  | .identifier => v.run isWordChar .ofWord .insideParen
  | .number =>
    if v.ahead.head?.any isDigit then v.run isWordChar .ofWord .insideParen else v.fail v.obstacle
  | .whitespace => v.run isBlank (fun _ => .whitespace) v.between
  | .comment =>
    if v.ahead.head? = some ';' then
      v.run (· ≠ '\n') (fun _ => .comment)
        (if v.ahead.dropWhile (· ≠ '\n') = [] then v.between else .whitespace)
    else v.fail v.obstacle

end View

theorem drop_takeWhile {α : Type} (p : α → Bool) (xs : List α) :
    xs.drop (xs.takeWhile p).length = xs.dropWhile p := by
  have h : (xs.takeWhile p ++ xs.dropWhile p).drop (xs.takeWhile p).length = xs.dropWhile p :=
    List.drop_left
  rwa [List.takeWhile_append_dropWhile] at h

namespace View

/-- The view after a text has been read and its lines not yet counted. -/
def skip (v : View) (text : List Char) : View :=
  { v with ahead := v.ahead.drop text.length, here := ⟨v.here.offset + byteSize text, v.here.line⟩ }

theorem skip_skip (v : View) (s t : List Char) : (v.skip s).skip t = v.skip (s ++ t) := by
  simp [skip, Nat.add_assoc]

theorem skip_of_not_mem {v : View} {text : List Char} (h : '\n' ∉ text) :
    v.skip text = v.read text := by
  rw [skip, read, Place.advance_of_not_mem h]

end View

namespace Lexer

/-- **The view of a lexer.** -/
def view (l : Lexer) : View := ⟨l.reader.ahead, l.reader.ending, l.mark, l.here, l.depth⟩

/-! ### Reading -/

theorem view_reader (l : Lexer) {r : Reader} {cs : List Char} {n : Nat}
    (h : r.Before cs l.reader.ending n) :
    view { l with reader := r } = { l.view with ahead := cs, here := ⟨n, l.line⟩ } := by
  simp [view, here, h.ahead, h.ending, h.offset]

theorem peek_eq (l : Lexer) : ∃ k, l.peek = (l.view.ahead.head?, k) ∧ k.view = l.view ∧
    (l.view.ahead = [] → k.reader.leftover = some l.view.ending.bytes) := by
  obtain ⟨h1, h2, h3⟩ := Reader.peek_before l.reader.before_self
  exact ⟨_, Prod.ext h1 rfl, l.view_reader h2, h3⟩

/-- A reader at the end knows what stands there. -/
theorem ending_of_leftover {l : Lexer} {e : Feed.Ending} (h : l.reader.leftover = some e.bytes) :
    l.ending = e.error ∧ (l.reader.undecoded?.isSome = true ↔ e.bytes ≠ []) := by
  by_cases hb : e.bytes = []
  · simp [ending, Reader.undecoded?, h, hb, Feed.Ending.error, Option.filter]
  · simp [ending, Reader.undecoded?, h, hb, Feed.Ending.error, Option.filter]

theorem takeWhile_eq (p : Char → Bool) (l : Lexer) :
    ∃ k, l.takeWhile p = (l.view.ahead.takeWhile p, k) ∧
      k.view = l.view.skip (l.view.ahead.takeWhile p) := by
  obtain ⟨h1, h2⟩ := Reader.takeWhile_before p l.reader.before_self
  refine ⟨_, Prod.ext h1 rfl, (l.view_reader h2).trans ?_⟩
  simp [View.skip, drop_takeWhile, view, here]

theorem accept_pos {c : Char} {l : Lexer} (h : l.view.ahead.head? = some c) :
    ∃ k, l.accept c = (true, k) ∧ k.view = l.view.skip [c] := by
  obtain ⟨cs, ha⟩ := List.head?_eq_some_iff.1 h
  have hb : l.reader.Before (c :: cs) l.reader.ending l.reader.offset := ⟨ha, rfl, rfl⟩
  obtain ⟨r, hr, h1, -⟩ := Reader.next_cons hb
  refine ⟨_, by simp [accept, hr], (l.view_reader h1).trans ?_⟩
  rw [View.skip, ha]; rfl

theorem accept_neg {c : Char} {l : Lexer} (h : l.view.ahead.head? ≠ some c) :
    ∃ k, l.accept c = (false, k) ∧ k.view = l.view := by
  rcases ha : l.reader.ahead with _ | ⟨d, cs⟩
  · obtain ⟨r, hr, h1, -⟩ := Reader.next_nil ⟨ha, rfl, rfl⟩
    exact ⟨_, by rw [accept, hr], (l.view_reader h1).trans (by rw [← ha]; rfl)⟩
  · obtain ⟨r, hr, -, h1⟩ := Reader.next_cons ⟨ha, rfl, rfl⟩
    have hd : d ≠ c := by simpa [view, ha] using h
    exact ⟨_, by rw [accept, hr]; simp [hd], (l.view_reader h1).trans (by rw [← ha]; rfl)⟩

/-! ### Outcomes -/

theorem view_fail (l : Lexer) (e : LexError) : Prod.map id view (l.fail e) = l.view.fail e := rfl

/-- A token made of a text that has been read. -/
theorem view_emit {l : Lexer} {v : View} {text : List Char} (h : l.view = v.read text)
    (k : Kind) (m : Mode) : Prod.map id view (l.emit k text m) = v.take k text m := by
  rw [View.take, ← h, show v.mark = l.view.mark by rw [h]; rfl]
  rfl

theorem view_unexpected (l : Lexer) :
    Prod.map id view l.unexpected = l.view.fail l.view.obstacle := by
  obtain ⟨k, hk, hv, he⟩ := l.peek_eq
  rw [unexpected, hk]
  rcases ha : l.view.ahead with _ | ⟨c, cs⟩
  · simp only [List.head?_nil, view_fail, (ending_of_leftover (he ha)).1, hv, View.obstacle, ha]
  · simp only [List.head?_cons, view_fail, hv, View.obstacle, ha]

variable (l : Lexer)

/-! ### Steps that choose -/

theorem view_text : Prod.map id view l.text = l.view.step .text := by
  obtain ⟨k, hk, hv, he⟩ := l.peek_eq
  rw [text, hk]
  rcases ha : l.view.ahead with _ | ⟨c, cs⟩
  · obtain ⟨h1, h2⟩ := ending_of_leftover (he ha)
    simp only [List.head?_nil, View.step, ha]
    by_cases hb : l.view.ending.bytes = []
    · rw [if_neg (by simpa [h2] using hb), if_pos hb, ← hv]; rfl
    · rw [if_pos (h2.2 hb), if_neg hb, view_fail, h1, hv]
  · simp only [List.head?_cons, View.step, ha]
    rw [← hv]
    generalize Kind.ofChar c = kind
    cases kind <;> rfl

theorem view_insideParen : Prod.map id view l.insideParen = l.view.step .insideParen := by
  have hd : l.depth = l.view.depth := rfl
  unfold insideParen View.step
  rw [hd]
  split
  · rfl
  · obtain ⟨k, hk, hv, -⟩ := l.peek_eq
    rw [hk]
    rcases ha : l.view.ahead with _ | ⟨c, cs⟩
    · simp only [List.head?_nil]
      rw [view_unexpected, hv]
    · simp only [List.head?_cons]
      rw [← hv]
      split_ifs with h1 h2
      · rfl
      · rfl
      · generalize Kind.ofChar c = kind
        cases kind <;> first | rfl | exact k.view_unexpected

/-! ### Steps that take a token -/

theorem view_openParen : Prod.map id view l.openParen = l.view.step .openParen := by
  by_cases h : l.view.ahead.head? = some '('
  · obtain ⟨k, hk, hv⟩ := accept_pos h
    have hd : k.depth = l.view.depth := congrArg View.depth hv
    simp only [openParen, hk, View.step, if_pos h, hd]
    split
    · refine view_emit (v := { l.view with depth := l.view.depth + 1 }) ?_ _ _
      show { k.view with depth := l.view.depth + 1 } = _
      rw [hv, View.skip_of_not_mem (by decide)]
      rfl
    · show (_, k.view) = _
      rw [hv, View.skip_of_not_mem (by decide)]
      simp [View.read]
  · obtain ⟨k, hk, hv⟩ := accept_neg h
    simp only [openParen, hk, View.step, if_neg h]
    rw [view_unexpected, hv]

theorem view_closeParen : Prod.map id view l.closeParen = l.view.step .closeParen := by
  have hd : l.depth = l.view.depth := rfl
  unfold closeParen View.step
  rw [hd]
  split
  · rfl
  · by_cases h : l.view.ahead.head? = some ')'
    · obtain ⟨k, hk, hv⟩ := accept_pos h
      have hd : k.depth = l.view.depth := congrArg View.depth hv
      simp only [hk, if_pos h, hd]
      refine view_emit (v := { l.view with depth := l.view.depth - 1 }) ?_ _ _
      show { k.view with depth := l.view.depth - 1 } = _
      rw [hv, View.skip_of_not_mem (by decide)]
      rfl
    · obtain ⟨k, hk, hv⟩ := accept_neg h
      simp only [hk, if_neg h]
      rw [view_unexpected, hv]

theorem lineFeed_not_mem_takeWhile {p : Char → Bool} (hp : p '\n' = false) (cs : List Char) :
    '\n' ∉ cs.takeWhile p := fun h => by
  have := List.mem_takeWhile_imp h
  rw [hp] at this; cases this

theorem view_identifier : Prod.map id view l.identifier = l.view.step .identifier := by
  obtain ⟨k, hk, hv⟩ := l.takeWhile_eq isWordChar
  have hn := lineFeed_not_mem_takeWhile (p := isWordChar) (by decide) l.view.ahead
  simp only [identifier, hk, View.step, View.run]
  rcases hw : l.view.ahead.takeWhile isWordChar with _ | ⟨c, cs⟩
  · rw [hw] at hv
    simp only [view_unexpected, hv]
    rfl
  · rw [hw] at hv hn
    exact view_emit (hv.trans (View.skip_of_not_mem hn)) _ _

theorem view_whitespace : Prod.map id view l.whitespace = l.view.step .whitespace := by
  obtain ⟨k, hk, hv⟩ := l.takeWhile_eq isBlank
  simp only [whitespace, hk, View.step, View.run]
  rcases hw : l.view.ahead.takeWhile isBlank with _ | ⟨c, cs⟩
  · rw [hw] at hv
    simp only [view_unexpected, hv]
    rfl
  · rw [hw] at hv
    refine view_emit ?_ _ _
    show { k.view with
      here := ⟨k.view.here.offset, l.line.advance l.reader.offset (c :: cs)⟩ } = _
    rw [hv]
    rfl

theorem view_comment : Prod.map id view l.comment = l.view.step .comment := by
  by_cases h : l.view.ahead.head? = some ';'
  · obtain ⟨k, hk, hv⟩ := accept_pos h
    obtain ⟨cs, ha⟩ := List.head?_eq_some_iff.1 h
    obtain ⟨k', hk', hv'⟩ := k.takeWhile_eq (· ≠ '\n')
    obtain ⟨k'', hk'', hv'', -⟩ := k'.peek_eq
    have hka : k.view.ahead = cs := by rw [hv, View.skip, ha]; rfl
    rw [hka] at hk' hv'
    have ht : (';' :: cs).takeWhile (· ≠ '\n') = ';' :: cs.takeWhile (· ≠ '\n') := by simp
    have hdw : (';' :: cs).dropWhile (· ≠ '\n') = cs.dropWhile (· ≠ '\n') := by simp
    have hn := lineFeed_not_mem_takeWhile (p := (· ≠ '\n')) (by decide) (';' :: cs)
    rw [ht] at hn
    have hs : k''.view = l.view.read (';' :: cs.takeWhile (· ≠ '\n')) := by
      rw [← View.skip_of_not_mem hn, hv'', hv', hv, View.skip_skip]; rfl
    have hrest : k''.view.ahead = cs.dropWhile (· ≠ '\n') := by
      rw [hv'', hv', View.skip, hka, drop_takeWhile]
    have hd : k''.depth = l.view.depth := by
      show k''.view.depth = _
      rw [hs]; rfl
    simp only [comment, hk, hk', hk'', View.step, if_pos h, View.run]
    rw [ha, ht, hdw, ← hrest, ← hv'']
    rcases hr : k''.view.ahead with _ | ⟨d, ds⟩
    · simp only [List.head?_nil, if_true]
      rw [view_emit hs, between, View.between, hd]
    · simp only [List.head?_cons, reduceCtorEq, if_false]
      rw [view_emit hs]
  · obtain ⟨k, hk, hv⟩ := accept_neg h
    simp only [comment, hk, View.step, if_neg h]
    rw [view_unexpected, hv]

/-- The point and the digits after it, if a point comes next. -/
theorem fraction?_eq (l : Lexer) : ∃ k,
    (∃ ds, l.view.ahead = '.' :: ds ∧ l.fraction? = (some (ds.takeWhile isDigit), k) ∧
      k.view = l.view.skip ('.' :: ds.takeWhile isDigit)) ∨
    (l.view.ahead.head? ≠ some '.' ∧ l.fraction? = (none, k) ∧ k.view = l.view) := by
  by_cases h : l.view.ahead.head? = some '.'
  · obtain ⟨k, hk, hv⟩ := accept_pos h
    obtain ⟨ds, ha⟩ := List.head?_eq_some_iff.1 h
    obtain ⟨k', hk', hv'⟩ := k.takeWhile_eq isDigit
    have hka : k.view.ahead = ds := by rw [hv, View.skip, ha]; rfl
    rw [hka] at hk' hv'
    refine ⟨k', .inl ⟨ds, ha, ?_, ?_⟩⟩
    · simp only [fraction?, hk, hk']
    · rw [hv', hv, View.skip_skip]; rfl
  · obtain ⟨k, hk, hv⟩ := accept_neg h
    exact ⟨k, .inr ⟨h, by simp only [fraction?, hk], hv⟩⟩

/-- A numeral is read in parts that follow one another. -/
theorem number_eq (h : l.view.ahead.takeWhile isDigit ≠ []) : ∃ k : Lexer,
    l.number = k.emit (Numeral.read l.view.ahead).kind (Numeral.read l.view.ahead).text
      .insideParen ∧ k.view = l.view.skip (Numeral.read l.view.ahead).text := by
  obtain ⟨k1, hk1, hv1⟩ := l.takeWhile_eq isDigit
  obtain ⟨k2, hf⟩ := k1.fraction?_eq
  obtain ⟨k3, hk3, hv3⟩ := k2.takeWhile_eq isWordChar
  have ha : k1.view.ahead = l.view.ahead.dropWhile isDigit := by
    rw [hv1, View.skip, drop_takeWhile]
  obtain ⟨c, cs, hcs⟩ := List.exists_cons_of_ne_nil h
  refine ⟨k3, ?_⟩
  rcases hf with ⟨ds, hds, hf, hv2⟩ | ⟨hne, hf, hv2⟩
  · have ha2 : k2.view.ahead = ds.dropWhile isDigit := by
      rw [hv2, View.skip, hds]
      exact drop_takeWhile isDigit ds
    rw [Numeral.read_of_eq (ha ▸ hds)]
    rw [ha2] at hk3 hv3
    refine ⟨?_, ?_⟩
    · simp only [number, hk1, hcs, hf, hk3]
    · rw [hv3, hv2, hv1, View.skip_skip, View.skip_skip, ← List.append_assoc]
      rfl
  · rw [Numeral.read_of_ne (ha ▸ hne)]
    rw [hv2, ha] at hk3 hv3
    refine ⟨?_, ?_⟩
    · simp only [number, hk1, hcs, hf, hk3]
    · rw [hv3, hv1, View.skip_skip]
      rfl

theorem view_number : Prod.map id view l.number = l.view.step .number := by
  simp only [View.step]
  by_cases hd : l.view.ahead.head?.any isDigit = true
  · obtain ⟨c, hc, hdig⟩ := (Option.any_eq_true _ _).1 hd
    obtain ⟨cs, ha⟩ := List.head?_eq_some_iff.1 hc
    obtain ⟨k, hk, hv⟩ := l.number_eq (by simp [ha, hdig])
    have hw : l.view.ahead.takeWhile isWordChar = c :: cs.takeWhile isWordChar := by
      rw [ha, List.takeWhile_cons_of_pos (isWordChar_of_isDigit hdig)]
    have hn := lineFeed_not_mem_takeWhile (p := isWordChar) (by decide) l.view.ahead
    have hkind : (Numeral.read l.view.ahead).kind = .ofWord (Numeral.read l.view.ahead).text := by
      rw [ha]; exact Numeral.kind_read hdig
    rw [Numeral.text_read] at hk hv hkind
    rw [if_pos hd, View.run, hw, hk, hkind, view_emit (hv.trans (View.skip_of_not_mem hn)), hw]
  · obtain ⟨k, hk, hv⟩ := l.takeWhile_eq isDigit
    have hnil : l.view.ahead.takeWhile isDigit = [] := by
      rcases ha : l.view.ahead with _ | ⟨c, cs⟩
      · rfl
      · rw [List.takeWhile_cons_of_neg (by simpa [ha] using hd)]
    rw [hnil] at hk hv
    rw [if_neg hd]
    simp only [number, hk, view_unexpected, hv]
    rfl

/-- **Each step of a lexer is the step of its view.** -/
theorem step_view (m : Mode) : Prod.map id view (l.step m) = l.view.step m := by
  cases m with
  | text => exact l.view_text
  | openParen => exact l.view_openParen
  | insideParen => exact l.view_insideParen
  | identifier => exact l.view_identifier
  | number => exact l.view_number
  | closeParen => exact l.view_closeParen
  | whitespace => exact l.view_whitespace
  | comment => exact l.view_comment

theorem view_of_step (m : Mode) : (l.step m).2.view = (l.view.step m).2 :=
  congrArg Prod.snd (l.step_view m)

theorem view_ofFeed (f : Feed) : (ofFeed f).view = ⟨f.chars, f.ending, .start, .start, 0⟩ := by
  have h := Reader.before_ofFeed f
  simp [view, here, ofFeed, h.ahead, h.ending, h.offset, Place.start]

end Lexer

end ParenLex
