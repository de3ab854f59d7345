import ParenLex.Lexer.Path
import ParenLex.Proofs.Tokens

/-!
# The steps of a scan

The steps that a scan takes when nobody breaks it off are those on the path of its lexer. They
depend on the characters and on the bytes after them, and so neither on a failed read nor on a
request to stop.

* `steps_congr`: lexers before the same characters and bytes take the same steps.
* `sends_steps`: what a scan sends are the tokens of the steps, and what is due after the last.
-/

namespace ParenLex

namespace View

variable {v : View} {e : Feed.Ending}

theorem obstacle_congr (h : e.bytes = v.ending.bytes) :
    { v with ending := e }.obstacle = v.obstacle := by
  simp only [obstacle, Feed.Ending.error, h]

theorem run_congr (h : e.bytes = v.ending.bytes) (p : Char → Bool) (k : List Char → Kind)
    (m : Mode) : { v with ending := e }.run p k m =
      Prod.map id (fun w => { w with ending := e }) (v.run p k m) := by
  simp only [run]
  split
  · rw [obstacle_congr h]; rfl
  · rfl

/-- **Of what stands after the characters, the bytes alone matter for a step.** -/
theorem step_congr (h : e.bytes = v.ending.bytes) (m : Mode) : { v with ending := e }.step m =
    Prod.map id (fun w => { w with ending := e }) (v.step m) := by
  have ho := obstacle_congr h
  cases m with
  | text =>
    simp only [step, Feed.Ending.error, h]
    split
    · split
      · rfl
      · rfl
    · split <;> rfl
  | insideParen =>
    simp only [step, ho]
    split_ifs
    · rfl
    · split
      · rfl
      · split_ifs
        · rfl
        · rfl
        · split <;> rfl
  | openParen =>
    simp only [step, ho]
    split_ifs <;> rfl
  | closeParen =>
    simp only [step, ho]
    split_ifs <;> rfl
  | identifier => exact run_congr h _ _ _
  | number =>
    simp only [step, ho]
    split
    · exact run_congr h _ _ _
    · rfl
  | whitespace => exact run_congr h isBlank (fun _ => .whitespace) v.between
  | comment =>
    simp only [step, ho]
    split
    · exact run_congr h _ _ _
    · rfl

end View

namespace Lexer

variable {l k : Lexer} {m n : Mode}

/-- **The steps of a lexer** from a mode on. -/
def steps (l : Lexer) (m : Mode) : List Step := (l.path m).map (·.step)

theorem path_proceed (h : (l.step m).1.next = .proceed n) :
    l.path m = l.stride m :: (l.step m).2.path n := by
  rw [path]
  split
  · next k hk =>
    obtain rfl := Transition.proceed.inj (h.symm.trans hk)
    rfl
  · next hk => exact absurd h (hk n)

theorem path_stop (h : ∀ n, (l.step m).1.next ≠ .proceed n) : l.path m = [l.stride m] := by
  rw [path]
  split
  · next k hk => exact absurd hk (h k)
  · rfl

theorem steps_proceed (h : (l.step m).1.next = .proceed n) :
    l.steps m = (l.step m).1 :: (l.step m).2.steps n := by
  rw [steps, path_proceed h]
  rfl

theorem steps_stop (h : ∀ n, (l.step m).1.next ≠ .proceed n) : l.steps m = [(l.step m).1] := by
  rw [steps, path_stop h]
  rfl

theorem steps_ne_nil (l : Lexer) (m : Mode) : l.steps m ≠ [] := by
  rw [steps, path]
  split <;> simp

/-- The tokens of the first step come first. -/
theorem tokens_cons (o : Step) (os : List Step) :
    (o :: os).filterMap (·.token) = o.token.toList ++ os.filterMap (·.token) := by
  cases h : o.token <;> simp [h]

/-- Lexers before the same characters and the same bytes after them make the same step, and stand
before the same then. -/
theorem step_congr (hv : k.view = { l.view with ending := k.view.ending })
    (hb : k.view.ending.bytes = l.view.ending.bytes) (m : Mode) : (k.step m).1 = (l.step m).1 ∧
      (k.step m).2.view = { (l.step m).2.view with ending := (k.step m).2.view.ending } := by
  -- both steps are those of their views, which differ in what stands after the characters
  have h : Prod.map id view (k.step m) =
      Prod.map id (fun w => { w with ending := k.view.ending }) (l.view.step m) := by
    rw [k.step_view, hv, View.step_congr hb]
  rw [← l.step_view] at h
  obtain ⟨h1, h2⟩ := Prod.mk.inj h
  exact ⟨h1, by rw [ending_step]; exact h2⟩

/-- **So they take the same steps.** -/
theorem steps_congr (hv : k.view = { l.view with ending := k.view.ending })
    (hb : k.view.ending.bytes = l.view.ending.bytes) (m : Mode) : k.steps m = l.steps m := by
  fun_induction path l m generalizing k with
  | case1 l m n h ih =>
    obtain ⟨h1, h2⟩ := step_congr hv hb m
    have hb2 : (k.step m).2.view.ending.bytes = (l.step m).2.view.ending.bytes := by
      rw [ending_step, ending_step, hb]
    rw [steps_proceed h, steps_proceed (h1 ▸ h), h1, ih h2 hb2]
  | case2 l m h =>
    obtain ⟨h1, -⟩ := step_congr hv hb m
    rw [steps_stop h, steps_stop (h1 ▸ h), h1]

/-- A step from a mode that fits goes on to one that fits, or halts. -/
theorem fits_or_halts (hm : l.view.Fits m) (hr : l.view.Room) :
    (∃ n, (l.step m).1.next = .proceed n ∧ (l.step m).2.view.Fits n ∧ (l.step m).2.view.Room) ∨
      ∃ h, (l.step m).1.next = .halt h := by
  have hg := goes_step hm hr
  generalize l.step m = x at hg
  cases hg with
  | choose n j _ hv hn => exact .inl ⟨n, rfl, (hv ▸ hn : j.view.Fits n), (hv ▸ hr : j.view.Room)⟩
  | take p n j hp hv hn => exact .inl ⟨n, rfl, hv ▸ hn, hv ▸ View.room_after hr hp⟩
  | fail => exact .inr ⟨_, rfl⟩
  | exhausted => exact .inr ⟨_, rfl⟩

/-- No step makes the token at the end of the input. -/
theorem kind_step (hm : l.view.Fits m) (hr : l.view.Room) :
    ∀ t ∈ (l.step m).1.token, t.kind ≠ .eof := by
  have hg := goes_step hm hr
  generalize l.step m = x at hg
  intro t ht
  cases hg with
  | choose => cases ht
  | take p n j hp =>
    obtain rfl := Option.some.inj ht
    exact (Piece.plain_first? hp).eof
  | fail e j =>
    obtain rfl := Option.some.inj ht
    intro h
    cases h
  | exhausted => cases ht

theorem kind_steps (hm : l.view.Fits m) (hr : l.view.Room) :
    ∀ t ∈ (l.steps m).filterMap (·.token), t.kind ≠ .eof := by
  fun_induction path l m with
  | case1 l m n h ih =>
    rw [steps_proceed h, tokens_cons]
    intro t ht
    rcases List.mem_append.1 ht with ht | ht
    · exact kind_step hm hr t (Option.mem_toList.1 ht)
    · -- the step went on, so the next mode fits as well
      rcases fits_or_halts hm hr with ⟨k, hk, hfit, hroom⟩ | ⟨x, hx⟩
      · obtain rfl := Transition.proceed.inj (h.symm.trans hk)
        exact ih hfit hroom t ht
      · rw [hx] at h
        cases h
  | case2 l m h =>
    rw [steps_stop h, tokens_cons, List.filterMap_nil, List.append_nil]
    intro t ht
    exact kind_step hm hr t (Option.mem_toList.1 ht)

end Lexer

namespace Scan

variable {s : Scan} {m : Mode}

/-- **A scan sends the tokens of its steps**, and the end of the input if it is due after the last
of them. The induction is on the course; what carries it is that the mode fits. -/
theorem sends_steps (hs : s.stage = .running m) (hm : s.lexer.view.Fits m)
    (hr : s.lexer.view.Room) : ∃ last h t, (s.lexer.steps m).getLast? = some last ∧
      last.next = .halt h ∧ t.kind = .eof ∧ s.Sends ((s.lexer.steps m).filterMap (·.token) ++
        if s.sendsEof h then [t] else []) h := by
  fun_induction course s generalizing m with
  | case1 s r h => simp [over?, hs] at h
  | case2 s ho ih =>
    obtain ⟨hoff, hnext⟩ := turn_running hs
    have he : (s.turn false).next.lexer.view.ending = s.lexer.view.ending := by
      rw [hnext]
      exact s.lexer.ending_step m
    rcases Lexer.fits_or_halts hm hr with ⟨n, hn, hfit, hroom⟩ | ⟨h, hh⟩
    · obtain ⟨last, h, t, h1, h2, h3, h4⟩ := ih (m := n) (by rw [hnext, hn]; rfl)
        (by rw [hnext]; exact hfit) (by rw [hnext]; exact hroom)
      have ht := Sends.turn ho h4 he
      rw [hoff, hnext] at ht
      rw [hnext] at h1
      refine ⟨last, h, t, ?_, h2, h3, ?_⟩
      · rw [Lexer.steps_proceed hn, List.getLast?_cons, h1]; rfl
      · rw [Lexer.steps_proceed hn, Lexer.tokens_cons, List.append_assoc]
        exact ht
    · -- one turn remains, in which the end of the input is sent if it is due
      have h4 : (s.turn false).next.Sends _ h := sends_stopped (by rw [hnext, hh]; rfl)
      have ht := Sends.turn ho h4 he
      rw [hoff, hnext] at ht
      have hsteps := Lexer.steps_stop (l := s.lexer) (m := m) (by simp [hh])
      refine ⟨_, h, (s.lexer.step m).2.eofToken, by rw [hsteps]; rfl, hh, rfl, ?_⟩
      rw [hsteps, Lexer.tokens_cons, List.filterMap_nil, List.append_nil]
      exact ht

end Scan

end ParenLex
