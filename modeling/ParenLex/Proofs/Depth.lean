import ParenLex.Proofs.Joining
import ParenLex.Proofs.Steps

/-!
# Starting from a depth

A lexer does not look at where it is, but for the positions that it reports, nor at how its depth came
about. So one that starts at a depth over a text goes step by step with one that has read as many open
parens before the same text, and reports all positions as if the parens were not there.

* `View.Behind.step`: two views, one behind a text, make the same step and stay together.
* `Lexer.path_behind`: so the paths of two lexers go together.
* `Lexer.exists_opening`: how a path goes through open parens.
* `withDepth_behind`: a lexer from a depth against one that has read the parens.
-/

namespace ParenLex

/-- The place `q` is the place `p` when a text is put before it. -/
def Place.Behind (cs : List Char) (p q : Place) : Prop :=
  ∃ past, p = start.advance past ∧ q = start.advance (cs ++ past)

/-- A step when a text is put before it. -/
def Step.behind (cs : List Char) (s : Step) : Step :=
  { s with token := s.token.map (Token.behind cs) }

variable {cs : List Char}

namespace Place

variable {p q : Place}

theorem Behind.position (h : p.Behind cs q) : q.position = p.position.behind cs := by
  obtain ⟨past, rfl, rfl⟩ := h
  exact position_behind cs past

theorem Behind.advance (h : p.Behind cs q) (ds : List Char) :
    (p.advance ds).Behind cs (q.advance ds) := by
  obtain ⟨past, rfl, rfl⟩ := h
  refine ⟨past ++ ds, ?_, ?_⟩
  · rw [advance_append]
  · rw [← List.append_assoc, advance_append _ (cs ++ past)]

theorem behind_start (cs : List Char) : start.Behind cs (start.advance cs) :=
  ⟨[], rfl, by rw [List.append_nil]⟩

end Place

namespace View

/-- **The view `w` is the view `v` behind a text**: both stand before the same, at the same depth. -/
structure Behind (cs : List Char) (v w : View) : Prop where
  ahead : w.ahead = v.ahead
  ending : w.ending = v.ending
  depth : w.depth = v.depth
  mark : v.mark.Behind cs w.mark
  here : v.here.Behind cs w.here

/-- What comes of a step, and of the same step behind a text. -/
structure Together (cs : List Char) (x y : Step × View) : Prop where
  step : y.1 = x.1.behind cs
  view : x.2.Behind cs y.2

variable {v w : View} {m : Mode}

theorem Behind.obstacle (h : v.Behind cs w) : w.obstacle = v.obstacle := by
  unfold View.obstacle
  rw [h.ahead, h.ending]

theorem Behind.between (h : v.Behind cs w) : w.between = v.between := by
  unfold View.between
  rw [h.depth]

theorem Behind.goto (h : v.Behind cs w) (m : Mode) : Together cs (v.goto m) (w.goto m) :=
  ⟨rfl, h⟩

theorem Behind.fail (h : v.Behind cs w) (e : LexError) : Together cs (v.fail e) (w.fail e) := by
  refine ⟨?_, h⟩
  unfold View.fail
  rw [h.mark.position]
  rfl

theorem Behind.read (h : v.Behind cs w) (text : List Char) :
    (v.read text).Behind cs (w.read text) := by
  refine ⟨?_, h.ending, h.depth, h.mark, h.here.advance text⟩
  unfold View.read
  rw [h.ahead]

theorem Behind.take (h : v.Behind cs w) (k : Kind) (text : List Char) (m : Mode) :
    Together cs (v.take k text m) (w.take k text m) := by
  have hread := h.read text
  refine ⟨?_, ⟨hread.ahead, hread.ending, hread.depth, hread.here, hread.here⟩⟩
  unfold View.take
  rw [h.mark.position]
  rfl

theorem Behind.run (h : v.Behind cs w) (p : Char → Bool) (k : List Char → Kind) (m : Mode) :
    Together cs (v.run p k m) (w.run p k m) := by
  unfold View.run
  rw [h.ahead, h.obstacle]
  split
  · exact h.fail _
  · exact h.take _ _ _

/-- A view at another depth. -/
theorem Behind.withDepth (h : v.Behind cs w) (d : Nat) :
    { v with depth := d }.Behind cs { w with depth := d } :=
  ⟨h.ahead, h.ending, rfl, h.mark, h.here⟩

/-- **Two views, one behind a text, make the same step and stay together.** -/
theorem Behind.step (h : v.Behind cs w) (m : Mode) : Together cs (v.step m) (w.step m) := by
  cases m with
  | text =>
    simp only [View.step, h.ahead, h.ending]
    split
    · split
      · exact ⟨rfl, h⟩
      · exact h.fail _
    · split
      · exact h.goto _
      · exact h.goto _
      · exact h.goto _
      · exact h.fail _
  | insideParen =>
    simp only [View.step, h.ahead, h.depth, h.obstacle]
    split_ifs
    · exact h.goto _
    · split
      · exact h.fail _
      · split_ifs
        · exact h.goto _
        · exact h.goto _
        · split
          · exact h.goto _
          · exact h.goto _
          · exact h.goto _
          · exact h.goto _
          · exact h.fail _
  | openParen =>
    simp only [View.step, h.ahead, h.depth, h.obstacle]
    split_ifs
    · have hdeep := h.withDepth (v.depth + 1)
      rw [h.ahead] at hdeep
      exact hdeep.take _ _ _
    · exact ⟨rfl, rfl, h.ending, rfl, h.mark, h.here.advance _⟩
    · exact h.fail _
  | closeParen =>
    simp only [View.step, h.ahead, h.depth, h.obstacle]
    split_ifs
    · exact h.fail _
    · have hdeep := h.withDepth (v.depth - 1)
      rw [h.ahead] at hdeep
      exact hdeep.take _ _ _
    · exact h.fail _
  | identifier => exact h.run _ _ _
  | number =>
    simp only [View.step, h.ahead, h.obstacle]
    split
    · exact h.run _ _ _
    · exact h.fail _
  | whitespace =>
    simp only [View.step, h.between]
    exact h.run _ _ _
  | comment =>
    simp only [View.step, h.ahead, h.between, h.obstacle]
    split
    · exact h.run _ _ _
    · exact h.fail _

end View

/-- **The stride `y` is the stride `x` behind a text**: from the same mode it makes the same step, and
the lexer after it has the same depth. -/
structure Stride.Behind (cs : List Char) (x y : Stride) : Prop where
  mode : y.mode = x.mode
  step : y.step = x.step.behind cs
  depth : y.after.depth = x.after.depth
  position : y.after.position = x.after.position.behind cs
  eof : y.after.eofToken = x.after.eofToken.behind cs

/-- The tokens made on a path are moved with it. -/
theorem Stride.tokens_behind {xs ys : List Stride} (h : List.Forall₂ (Stride.Behind cs) xs ys) :
    ys.filterMap (·.step.token) = (xs.filterMap (·.step.token)).map (Token.behind cs) := by
  induction h with
  | nil => rfl
  | @cons x y xs ys hxy _ ih =>
    have htok : y.step.token = x.step.token.map (Token.behind cs) := by
      rw [hxy.step]
      rfl
    rw [List.filterMap_cons, List.filterMap_cons, htok, ih]
    cases x.step.token with
    | none => rfl
    | some t => rfl

namespace Lexer

variable {l k : Lexer} {m : Mode}

theorem step_behind (h : l.view.Behind cs k.view) (m : Mode) :
    (k.step m).1 = (l.step m).1.behind cs ∧ (l.step m).2.view.Behind cs (k.step m).2.view := by
  have hstep := h.step m
  rw [← l.step_view, ← k.step_view] at hstep
  exact ⟨hstep.step, hstep.view⟩

theorem stride_behind (h : l.view.Behind cs k.view) (m : Mode) :
    (l.stride m).Behind cs (k.stride m) := by
  obtain ⟨hstep, hview⟩ := step_behind h m
  refine ⟨rfl, hstep, hview.depth, hview.mark.position, ?_⟩
  exact congrArg Token.eof hview.here.position

/-- **The paths of two lexers, one behind a text, go together.** -/
theorem path_behind (h : l.view.Behind cs k.view) (m : Mode) :
    List.Forall₂ (Stride.Behind cs) (l.path m) (k.path m) := by
  fun_induction path l m generalizing k with
  | case1 l m n hn ih =>
    obtain ⟨hstep, hview⟩ := step_behind h m
    have hk : (k.step m).1.next = .proceed n := by
      rw [hstep]
      exact hn
    rw [path_proceed hk]
    exact .cons (stride_behind h m) (ih hview)
  | case2 l m hn =>
    obtain ⟨hstep, -⟩ := step_behind h m
    have hk : ∀ n, (k.step m).1.next ≠ .proceed n := by
      rw [hstep]
      exact hn
    rw [path_stop hk]
    exact .cons (stride_behind h m) .nil

/-- **A path from a mode that fits ends with a halt.** -/
theorem exists_halt (hm : l.view.Fits m) (hr : l.view.Room) :
    ∃ last x, (l.path m).getLast? = some last ∧ last.step.next = .halt x := by
  fun_induction path l m with
  | case1 l m n h ih =>
    rcases fits_or_halts hm hr with ⟨k, hk, hfit, hroom⟩ | ⟨x, hx⟩
    · obtain rfl := Transition.proceed.inj (h.symm.trans hk)
      obtain ⟨last, x, hlast, hx⟩ := ih hfit hroom
      refine ⟨last, x, ?_, hx⟩
      rw [List.getLast?_cons, hlast]
      rfl
    · rw [hx] at h
      cases h
  | case2 l m h =>
    rcases fits_or_halts hm hr with ⟨k, hk, -⟩ | ⟨x, hx⟩
    · exact absurd hk (h k)
    · exact ⟨l.stride m, x, rfl, hx⟩

/-! ### Open parens -/

variable {ds : List Char} {e : Feed.Ending} {p : Place} {i : Nat}

/-- Between tokens an open paren is chosen, and then taken. -/
theorem exists_open (hv : l.view = ⟨'(' :: ds, e, p, p, i⟩) (hi : i < counterMax) :
    ∃ x y, l.path l.between = x :: y :: y.after.path .insideParen ∧ x.step.token = none ∧
      y.step = ⟨some ⟨.openParen, "(", p.position⟩, .proceed .insideParen⟩ ∧
      y.after.view = ⟨ds, e, p.advance ['('], p.advance ['('], i + 1⟩ := by
  have hstep : l.view.step l.between = (⟨none, .proceed .openParen⟩, l.view) := by
    have hdepth : l.depth = i := congrArg View.depth hv
    rw [hv, between, hdepth]
    split
    · rfl
    · next h0 =>
      simp only [View.step, if_neg h0]
      rfl
  rw [← l.step_view] at hstep
  obtain ⟨h1, h2⟩ := Prod.mk.inj hstep
  have h1 : (l.step l.between).1 = ⟨none, .proceed .openParen⟩ := h1
  have hview : (l.step l.between).2.view = l.view := h2
  have htake : (l.step l.between).2.view.step .openParen =
      (⟨some ⟨.openParen, "(", p.position⟩, .proceed .insideParen⟩,
        ⟨ds, e, p.advance ['('], p.advance ['('], i + 1⟩) := by
    rw [hview, hv]
    simp only [View.step, List.head?_cons, if_true, if_pos hi]
    rfl
  rw [← (l.step l.between).2.step_view] at htake
  obtain ⟨h3, h4⟩ := Prod.mk.inj htake
  have h3 : ((l.step l.between).2.step .openParen).1 = _ := h3
  refine ⟨l.stride l.between, (l.step l.between).2.stride .openParen, ?_, ?_, h3, h4⟩
  · rw [path_proceed (n := .openParen) (by rw [h1]), path_proceed (n := .insideParen) (by rw [h3])]
    rfl
  · exact congrArg Step.token h1

/-- The place after open parens. -/
def opened (i : Nat) : Place := Place.start.advance (List.replicate i '(')

theorem opened_succ (i : Nat) : (opened i).advance ['('] = opened (i + 1) := by
  unfold opened
  rw [← Place.advance_append, ← List.replicate_succ']

theorem position_opened (i : Nat) : (opened i).position = ⟨1, i, i⟩ := by
  have hbytes : byteSize (List.replicate i '(') = i := by
    induction i with
    | zero => rfl
    | succ i ih =>
      rw [List.replicate_succ, byteSize_cons, ih, Nat.add_comm]
      rfl
  have hline : lastLine (List.replicate i '(') = List.replicate i '(' := by
    apply lastLine_of_not_mem
    simp
  have hcount : (List.replicate i '(').count '\n' = 0 := by
    rw [List.count_eq_zero]
    simp
  rw [opened, Place.position_advance, hline, hbytes, hcount]

/-- **A path through open parens** takes them one after another, each one deeper, and goes on inside
of the last. -/
theorem exists_opening (n : Nat) {i : Nat} (hi : i + n + 1 ≤ counterMax)
    (hv : l.view = ⟨List.replicate (n + 1) '(' ++ ds, e, opened i, opened i, i⟩) :
    ∃ opening last, l.path l.between = opening ++ last :: last.after.path .insideParen ∧
      (opening ++ [last]).filterMap (·.step.token) =
        (List.range' i (n + 1)).map (fun j => ⟨.openParen, "(", ⟨1, j, j⟩⟩) ∧
      last.step.next = .proceed .insideParen ∧
      last.after.view = ⟨ds, e, opened (i + n + 1), opened (i + n + 1), i + n + 1⟩ := by
  induction n generalizing l i with
  | zero =>
    obtain ⟨x, y, hpath, hx, hy, hview⟩ := exists_open hv (by omega)
    rw [opened_succ] at hview
    refine ⟨[x], y, hpath, ?_, ?_, hview⟩
    · simp [hx, hy, position_opened]
    · rw [hy]
  | succ n ih =>
    obtain ⟨x, y, hpath, hx, hy, hview⟩ := exists_open hv (by omega)
    rw [opened_succ] at hview
    -- one deeper the path is again before open parens
    have hbetween : y.after.between = .insideParen := by
      have hdepth : y.after.depth = i + 1 := congrArg View.depth hview
      simp [between, hdepth]
    obtain ⟨opening, last, hrest, htokens, hnext, hlast⟩ := ih (by omega) hview
    rw [hbetween] at hrest
    rw [show i + 1 + n + 1 = i + (n + 1) + 1 by omega] at hlast
    refine ⟨x :: y :: opening, last, ?_, ?_, hnext, hlast⟩
    · rw [hpath, hrest]
      rfl
    · rw [List.range'_succ, List.map_cons, ← htokens]
      simp [hx, hy, position_opened]

end Lexer

/-- Open parens put before a text move its offsets, and the columns of its first line. -/
theorem Position.behind_replicate (d : Nat) (p : Position) :
    p.behind (List.replicate d '(') =
      ⟨p.line, if p.line = 1 then p.column + d else p.column, p.offset + d⟩ := by
  have hpos := Lexer.position_opened d
  rw [Lexer.opened, Place.position_advance, Position.mk.injEq] at hpos
  obtain ⟨hcount, hcolumn, hoffset⟩ := hpos
  rw [Position.behind, hcolumn, hoffset, Position.mk.injEq]
  exact ⟨by omega, rfl, rfl⟩

/-- **To start from a depth is to have read as many open parens.** Take a lexer over a text that starts
inside of parens, at a depth, and one over as many open parens and the text, which starts at the top
level. The one comes to a halt. The other makes a token of each open paren, and from there on, or from
the top level if there is none, the two go through the same modes and depths, make the same tokens and
come to the same halt, with all positions moved: the offsets by the depth, and so the columns of the
first line. -/
theorem withDepth_behind {d : Nat} {s : String} (h : d + s.utf8ByteSize ≤ counterMax) :
    let opens := List.replicate d '('
    let deep := (Lexer.ofFeed (.ofText s)).withDepth d
    let fresh := Lexer.ofFeed (.ofText (String.ofList opens ++ s))
    (∀ p : Position, p.behind opens =
      ⟨p.line, if p.line = 1 then p.column + d else p.column, p.offset + d⟩) ∧
    (∃ last x, (deep.path .insideParen).getLast? = some last ∧ last.step.next = .halt x) ∧
    (0 < d → ∃ opening last,
      fresh.path .text = opening ++ last :: last.after.path .insideParen ∧
      (opening ++ [last]).filterMap (·.step.token) =
        (List.range d).map (fun i => ⟨.openParen, "(", ⟨1, i, i⟩⟩) ∧
      last.step.next = .proceed .insideParen ∧ last.after.depth = d ∧
      List.Forall₂ (Stride.Behind opens) (deep.path .insideParen)
        (last.after.path .insideParen)) ∧
    (d = 0 → deep.path .insideParen =
        ⟨.insideParen, ⟨none, .proceed .text⟩, deep⟩ :: deep.path .text ∧
      List.Forall₂ (Stride.Behind opens) (deep.path .text) (fresh.path .text)) := by
  intro opens deep fresh
  have hdeep : deep.view = ⟨s.toList, ⟨[], none, false⟩, .start, .start, d⟩ := by
    have hv := Lexer.view_ofFeed (.ofText s)
    rw [Feed.chars_ofText, Feed.ending_ofText] at hv
    exact congrArg (fun v : View => { v with depth := d }) hv
  have hfresh : fresh.view = ⟨opens ++ s.toList, ⟨[], none, false⟩, .start, .start, 0⟩ := by
    rw [Lexer.view_ofFeed, Feed.chars_ofText, Feed.ending_ofText, String.toList_append,
      String.toList_ofList]
  -- once the parens have been read, the one lexer is the other behind them
  have hbehind : ∀ k : Lexer,
      k.view = ⟨s.toList, ⟨[], none, false⟩, Lexer.opened d, Lexer.opened d, d⟩ →
        deep.view.Behind opens k.view := by
    intro k hk
    rw [hdeep, hk]
    exact ⟨rfl, rfl, rfl, Place.behind_start opens, Place.behind_start opens⟩
  refine ⟨Position.behind_replicate d, ?_, ?_, ?_⟩
  · have hroom : deep.view.Room := by
      have hlen := Utf8.length_le_byteSize s.toList
      rw [Utf8.byteSize_toList] at hlen
      rw [hdeep]
      unfold View.Room
      dsimp only
      omega
    exact Lexer.exists_halt (m := .insideParen) trivial hroom
  · intro hd
    obtain ⟨n, rfl⟩ : ∃ n, d = n + 1 := ⟨d - 1, by omega⟩
    obtain ⟨opening, last, hpath, htokens, hnext, hlast⟩ :=
      Lexer.exists_opening (i := 0) n (by omega) hfresh
    have hbetween : fresh.between = .text := by
      have hdepth : fresh.depth = 0 := congrArg View.depth hfresh
      simp [Lexer.between, hdepth]
    rw [Nat.zero_add] at hlast
    rw [hbetween] at hpath
    refine ⟨opening, last, hpath, ?_, hnext, congrArg View.depth hlast, ?_⟩
    · rw [htokens, List.range_eq_range']
    · exact Lexer.path_behind (hbehind _ hlast) _
  · rintro rfl
    have hstep : deep.step .insideParen = (⟨none, .proceed .text⟩, deep) := rfl
    refine ⟨?_, Lexer.path_behind (hbehind _ hfresh) _⟩
    rw [Lexer.path_proceed (n := .text) (by rw [hstep]), Lexer.stride, hstep]

/-- A close paren and an error on the next line, at depth two and behind two open parens. -/
theorem withDepth_behind_two :
    let s := ")\n@"
    let deep := (Lexer.ofFeed (.ofText s)).withDepth 2
    let fresh := Lexer.ofFeed (.ofText ("((" ++ s))
    2 + s.utf8ByteSize ≤ counterMax ∧
    (deep.path .insideParen).filterMap (·.step.token) = [⟨.closeParen, ")", ⟨1, 0, 0⟩⟩,
      ⟨.whitespace, "\n", ⟨1, 1, 1⟩⟩, .error "Unexpected @" ⟨2, 0, 2⟩] ∧
    (fresh.path .text).filterMap (·.step.token) = [⟨.openParen, "(", ⟨1, 0, 0⟩⟩,
      ⟨.openParen, "(", ⟨1, 1, 1⟩⟩, ⟨.closeParen, ")", ⟨1, 2, 2⟩⟩, ⟨.whitespace, "\n", ⟨1, 3, 3⟩⟩,
      .error "Unexpected @" ⟨2, 0, 4⟩] := by
  intro s deep fresh
  have h : 2 + s.utf8ByteSize ≤ counterMax := by decide
  have hdeep : (deep.path .insideParen).filterMap (·.step.token) = [⟨.closeParen, ")", ⟨1, 0, 0⟩⟩,
      ⟨.whitespace, "\n", ⟨1, 1, 1⟩⟩, .error "Unexpected @" ⟨2, 0, 2⟩] := by
    decide +kernel
  obtain ⟨-, -, hopen, -⟩ := withDepth_behind h
  obtain ⟨opening, last, hpath, htokens, -, -, hrest⟩ := hopen (by decide)
  have hpath : fresh.path .text = opening ++ [last] ++ last.after.path .insideParen := by
    rw [List.append_assoc]
    exact hpath
  refine ⟨h, hdeep, ?_⟩
  rw [hpath, List.filterMap_append, htokens, Stride.tokens_behind hrest, hdeep]
  rfl

end ParenLex
