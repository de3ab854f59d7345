import ParenLex.Proofs.Coverage
import ParenLex.Proofs.Joining
import ParenLex.Report.Render

/-!
# Reports point where the scan has failed

A report finds its place by itself: it looks for the character at the offset of an error, and counts
the lines and the characters before it in the text. The scan has counted them on its way there, and
both come to the same.

* `splitBytes_append`: the size of a text splits off that text.
* `locate_append`: the line and the column that are found there.
* `Munch.stop_cases`: what a text is stopped by.
* `report_agrees`: the reports of the tokens of a text.
-/

namespace ParenLex

open Piece (texts layout)

namespace Report

/-- **A part of a text, by its bytes**: those from `first` up to `last`. -/
def Spans (cs : List Char) (first last : Nat) (part : List Char) : Prop :=
  ∃ before after, cs = before ++ part ++ after ∧ byteSize before = first ∧
    byteSize (before ++ part) = last

variable {f : SourceFile} {past rest : List Char}

/-! ### Locations -/

theorem splitBytesOnto_append (acc cs ds : List Char) :
    splitBytesOnto acc (cs ++ ds) (byteSize cs) = (cs.reverse ++ acc, ds) := by
  induction cs generalizing acc with
  | nil =>
    cases ds with
    | nil => rfl
    | cons d ds =>
      have hpos := d.utf8Size_pos
      have hlt : ¬ d.utf8Size ≤ 0 := by omega
      rw [List.nil_append, byteSize_nil, splitBytesOnto, if_neg hlt]
      rfl
  | cons c cs ih =>
    have hle : c.utf8Size ≤ c.utf8Size + byteSize cs := by omega
    rw [List.cons_append, byteSize_cons, splitBytesOnto, if_pos hle, Nat.add_sub_cancel_left, ih]
    simp

/-- **The size of a text splits off that text.** -/
theorem splitBytes_append (cs ds : List Char) :
    splitBytes (cs ++ ds) (byteSize cs) = (cs.reverse, ds) := by
  unfold splitBytes
  rw [splitBytesOnto_append, List.append_nil]

/-- **The place after a text is on its last line**, behind as many characters as that holds. -/
theorem locate_append (cs ds : List Char) :
    (locate (cs ++ ds) (byteSize cs)).line = 1 + cs.count '\n' ∧
      (locate (cs ++ ds) (byteSize cs)).column = 1 + (lastLine cs).length := by
  unfold locate
  rw [splitBytes_append]
  refine ⟨?_, ?_⟩
  · simp
  · simp [lastLine, List.rtakeWhile]

/-- The last line of a text is the part from its start on. -/
theorem spans_lastLine (cs ds : List Char) :
    Spans (cs ++ ds) (byteSize cs - byteSize (lastLine cs)) (byteSize cs) (lastLine cs) := by
  have hsplit : cs.rdropWhile (· ≠ '\n') ++ lastLine cs = cs := List.rdropWhile_append_rtakeWhile
  have hsize := congrArg byteSize hsplit
  rw [byteSize_append] at hsize
  refine ⟨cs.rdropWhile (· ≠ '\n'), ds, ?_, ?_, ?_⟩
  · rw [hsplit]
  · omega
  · rw [hsplit]

/-- A label begins at the place and covers the character there, if there is one. -/
theorem labelRange_append (h : f.text.toList = past ++ rest) :
    Reporter.labelRange f (byteSize past) =
      (byteSize past, byteSize past + (rest.head?.map Char.utf8Size).getD 0) := by
  have hmin : min (byteSize past) (byteSize (past ++ rest)) = byteSize past := by
    rw [byteSize_append]
    omega
  have hchar : charAt? (past ++ rest) (byteSize past) = rest.head? := by
    unfold charAt?
    rw [splitBytes_append]
    exact if_pos (byteSize_reverse past)
  unfold Reporter.labelRange
  rw [h, hmin]
  dsimp only
  rw [hchar]

/-! ### Drawings -/

/-- A drawing begins with the message, and with the name, the line and the column. -/
theorem exists_draw_eq (f : SourceFile) (d : Diagnostic) : ∃ rest, draw f d =
    "error: " ++ d.message ++ "\n" ++
      String.ofList (List.replicate (locate f.text.toList d.label.first).line.repr.length ' ') ++
      " ┌─ " ++ f.name ++ ":" ++ (locate f.text.toList d.label.first).line.repr ++ ":" ++
      (locate f.text.toList d.label.first).column.repr ++ "\n" ++ rest := by
  have herr : d.severity ++ ": " = "error: " := by
    show "error" ++ ": " = "error: "
    decide
  unfold draw
  rw [herr]
  simp only [String.append_assoc]
  exact ⟨_, rfl⟩

theorem draw_ne (f : SourceFile) (d : Diagnostic) : draw f d ≠ "" := by
  obtain ⟨rest, h⟩ := exists_draw_eq f d
  rw [h]
  intro he
  simp [String.append_eq_empty_iff] at he

end Report

/-! ### What stops a text -/

theorem Munch.first?_rest (d : Nat) (cs : List Char) :
    Piece.first? (munch d cs).depth (munch d cs).rest = none := by
  fun_induction munch d cs with
  | case1 d cs h => exact h
  | case2 d cs p h m ih => exact ih

/-- **What a text is stopped by**: nothing, its end with parens open, or a character, which is no
line feed. -/
theorem Munch.stop_cases (cs : List Char) {e : Feed.Ending} (he : e.bytes = []) :
    (munch 0 cs).obstacle? e = none ∨
      ((munch 0 cs).rest = [] ∧ (munch 0 cs).obstacle? e = some .endOfInput) ∨
      ∃ c rest o, (munch 0 cs).rest = c :: rest ∧ c ≠ '\n' ∧ (munch 0 cs).obstacle? e = some o ∧
        (o = .character c ∨ o = .bytes (String.utf8EncodeChar c)) := by
  have hfirst := Munch.first?_rest 0 cs
  unfold obstacle?
  rcases hr : (munch 0 cs).rest with _ | ⟨c, rest⟩
  · by_cases hd : (munch 0 cs).depth = 0
    · exact .inl (by simp [he, hd])
    · exact .inr (.inl ⟨rfl, by simp [he, hd]⟩)
  · refine .inr (.inr ⟨c, rest, _, rfl, ?_, rfl, ?_⟩)
    · -- a line feed is a blank, which is a piece wherever it stands
      rintro rfl
      rw [hr, Piece.first?_blank _ _ (by decide)] at hfirst
      cases hfirst
    · by_cases hd : (munch 0 cs).depth = 0
      · exact .inr (if_pos hd)
      · exact .inl (if_neg hd)

/-- **A report agrees with the error that it is of.** Its label begins where the error stands and
covers the character that the error names, which is no line feed, or nothing at the end of the text.
Its heading shows the line of the error, and the characters of that line before it, counted from
1. -/
structure Report.Agrees (f : SourceFile) (t : Token) (d : Diagnostic) (drawn : String) : Prop where
  first : d.label.first = t.position.offset
  within : t.position.offset ≤ f.text.utf8ByteSize
  names : t.text ≠ "Unexpected EOF" → ∃ c, c ≠ '\n' ∧
    Spans f.text.toList d.label.first d.label.last [c] ∧
      (t.text = "Unexpected " ++ c.toString ∨ t.text = "Unexpected sequence: " ++
        String.ofList (Text.Hex.ofBytes (String.utf8EncodeChar c)))
  empty : d.label.last = d.label.first ↔ t.text = "Unexpected EOF"
  ended : t.text = "Unexpected EOF" → d.label.first = f.text.utf8ByteSize
  heading : ∃ start before rest, t.position.lineStart = .ok start ∧
    Spans f.text.toList start t.position.offset before ∧
    drawn = "error: Lexer error\n" ++
      String.ofList (List.replicate t.position.line.repr.length ' ') ++ " ┌─ " ++ f.name ++ ":" ++
      t.position.line.repr ++ ":" ++ (1 + before.length).repr ++ "\n" ++ rest

namespace Reporter

open Report

variable {f : SourceFile} {past rest : List Char} {o : LexError} {t : Token} {ts : List Token}

theorem render_of_not_isError {r : Reporter} {file : Nat} (h : t.isError = false) :
    r.render file t = .ok "" := by
  unfold render
  rw [diagnose_of_not_isError h]
  rfl

/-- The diagnostic of an error after part of the text, and its drawing. -/
theorem diagnose_error (h : f.text.toList = past ++ rest) (o : LexError) :
    let t := Token.error o.message (Place.start.advance past).position
    let d : Diagnostic := ⟨"Lexer error", ⟨0, byteSize past,
      byteSize past + (rest.head?.map Char.utf8Size).getD 0, o.message⟩⟩
    (empty.addFile f).2.diagnose 0 t = .ok (some d) ∧
      (empty.addFile f).2.render 0 t = .ok (draw f d) := by
  intro t d
  have hoff : t.position.offset = byteSize past := Nat.zero_add _
  have hd : (empty.addFile f).2.diagnose 0 t = .ok (some d) := by
    show Except.ok (some (Diagnostic.mk _ ⟨0, (labelRange f t.position.offset).1,
      (labelRange f t.position.offset).2, _⟩)) = _
    rw [hoff, labelRange_append h]
    rfl
  refine ⟨hd, ?_⟩
  unfold render
  rw [hd]
  rfl

/-- The report of such an error agrees with it, if the error is what stops the text there. -/
theorem agrees_error (h : f.text.toList = past ++ rest)
    (ho : rest = [] ∧ o = .endOfInput ∨ ∃ c cs, rest = c :: cs ∧ c ≠ '\n' ∧
      (o = .character c ∨ o = .bytes (String.utf8EncodeChar c))) :
    let t := Token.error o.message (Place.start.advance past).position
    let d : Diagnostic := ⟨"Lexer error", ⟨0, byteSize past,
      byteSize past + (rest.head?.map Char.utf8Size).getD 0, o.message⟩⟩
    Agrees f t d (draw f d) := by
  intro t d
  have hpos := Place.position_advance past
  have hoff : t.position.offset = byteSize past := Nat.zero_add _
  have hsize : f.text.utf8ByteSize = byteSize past + byteSize rest := by
    rw [← Utf8.byteSize_toList, h, byteSize_append]
  have hend : t.text = "Unexpected EOF" ↔ o = .endOfInput := LexError.message_eq_endOfInput
  refine ⟨hoff.symm, ?_, ?_, ?_, ?_, ?_⟩
  · omega
  · intro hne
    rcases ho with ⟨-, rfl⟩ | ⟨c, cs, rfl, hc, hn⟩
    · exact absurd (hend.2 rfl) hne
    · refine ⟨c, hc, ⟨past, cs, ?_, rfl, ?_⟩, ?_⟩
      · rw [h, List.append_assoc]
        rfl
      · simp [d]
      · rcases hn with rfl | rfl
        · exact .inl rfl
        · exact .inr rfl
  · rw [hend]
    rcases ho with ⟨rfl, rfl⟩ | ⟨c, cs, rfl, -, hn⟩
    · exact iff_of_true rfl rfl
    · refine iff_of_false ?_ ?_
      · have hwidth := c.utf8Size_pos
        simp only [d, List.head?_cons, Option.map_some, Option.getD_some]
        omega
      · rintro rfl
        rcases hn with hn | hn <;> cases hn
  · intro he
    rcases ho with ⟨rfl, -⟩ | ⟨c, cs, rfl, -, hn⟩
    · rw [hsize]
      rfl
    · obtain rfl := hend.1 he
      rcases hn with hn | hn <;> cases hn
  · obtain ⟨hline, hcol⟩ := locate_append past rest
    obtain ⟨drawn, hdraw⟩ := exists_draw_eq f d
    have hline : (locate f.text.toList d.label.first).line = t.position.line := by
      show (locate f.text.toList (byteSize past)).line = (Place.start.advance past).position.line
      rw [h, hline, hpos]
    have hcol : (locate f.text.toList d.label.first).column = 1 + (lastLine past).length := by
      rw [h]
      exact hcol
    refine ⟨byteSize past - byteSize (lastLine past), lastLine past, drawn, ?_, ?_, ?_⟩
    · -- the column that the scan has counted is the size of the last line
      have hle := Place.line_start_add past
      show (Place.start.advance past).position.lineStart = _
      rw [Position.lineStart_eq_ok_iff, hpos]
      show byteSize past = byteSize past - byteSize (lastLine past) + byteSize (lastLine past)
      omega
    · rw [hoff, h]
      exact spans_lastLine past rest
    · rw [hdraw, hline, hcol]
      rfl

/-- Only errors have a report that is listed. -/
theorem renderAll_append (h : ∀ u ∈ ts, u.isError = false) {drawn : String}
    (hd : (empty.addFile f).2.render 0 t = .ok drawn) :
    renderAll f (ts ++ [t]) = .ok (if drawn = "" then [] else [drawn]) := by
  have hts : ts.mapM ((empty.addFile f).2.render 0) = .ok (ts.map fun _ => "") := by
    induction ts with
    | nil => rfl
    | cons u ts ih =>
      obtain ⟨hu, hts⟩ := List.forall_mem_cons.1 h
      rw [List.mapM_cons, render_of_not_isError hu, ih hts]
      rfl
  have hall : (ts ++ [t]).mapM ((empty.addFile f).2.render 0) =
      .ok (ts.map (fun _ => "") ++ [drawn]) := by
    rw [List.mapM_append, hts, List.mapM_cons, hd]
    rfl
  show ((ts ++ [t]).mapM ((empty.addFile f).2.render 0) >>= _) = _
  rw [hall]
  show Except.ok _ = _
  rw [List.filter_append, List.filter_eq_nil_iff.2 (by simp)]
  by_cases hn : drawn = "" <;> simp [hn]

end Reporter

/-- **Reports agree with the scan.** Of the tokens of a text only an error is reported, the last of
them; where the scan has come to the end of the input, nothing is. The report points at the very
character that the error names, and shows the line and the column at which the scan has counted it. -/
theorem report_agrees (f : SourceFile) (h : f.text.utf8ByteSize ≤ counterMax) :
    let file := (Reporter.empty.addFile f).1
    let r := (Reporter.empty.addFile f).2
    ∃ ts t reports, tokenize? f.text = .ok (ts ++ [t]) ∧ (t.kind = .eof ∨ t.kind = .error) ∧
      (∀ u ∈ ts ++ [t], u.kind ≠ .error → r.render file u = .ok "") ∧
      Reporter.renderAll f (ts ++ [t]) = .ok reports ∧ reports.length ≤ 1 ∧
      (reports = [] ↔ t.kind = .eof) ∧
      (t.kind = .error → ∃ d drawn, r.diagnose file t = .ok (some d) ∧
        r.render file t = .ok drawn ∧ reports = [drawn] ∧ Report.Agrees f t d drawn) := by
  intro file r
  obtain ⟨htok, heq⟩ := tokenize_eq h
  have htexts := texts_munch 0 f.text.toList
  have hplain : ∀ u ∈ layout .start (munch 0 f.text.toList).pieces, u.isError = false := by
    intro u hu
    exact (Token.text_layout (plain_munch 0 f.text.toList) u hu).2.1
  have hother : ∀ u : Token, u.kind ≠ .error → r.render file u = .ok "" := by
    intro u hu
    apply Reporter.render_of_not_isError
    simpa [Token.isError] using hu
  rw [htok, heq, Munch.tokens, Munch.closing]
  have hstop := @Munch.stop_cases f.text.toList ⟨[], none, false⟩ rfl
  generalize munch 0 f.text.toList = m at htexts hplain hstop
  rcases hobs : m.obstacle? ⟨[], none, false⟩ with _ | o
  · -- the last token is the end of the input, and no report is made
    refine ⟨_, _, _, rfl, .inl rfl, fun u _ => hother u,
      Reporter.renderAll_append hplain (hother _ (by simp [Token.eof])), ?_, ?_, ?_⟩
    · simp
    · simp [Token.eof]
    · intro hk
      cases hk
  · have hcases : m.rest = [] ∧ o = .endOfInput ∨ ∃ c cs, m.rest = c :: cs ∧ c ≠ '\n' ∧
        (o = .character c ∨ o = .bytes (String.utf8EncodeChar c)) := by
      rw [hobs] at hstop
      rcases hstop with hn | ⟨hr, ho⟩ | ⟨c, cs, o', hr, hc, ho, hn⟩
      · cases hn
      · exact .inl ⟨hr, Option.some.inj ho⟩
      · obtain rfl := Option.some.inj ho
        exact .inr ⟨c, cs, hr, hc, hn⟩
    obtain ⟨hdiag, hrender⟩ := Reporter.diagnose_error htexts.symm o
    have hagree := Reporter.agrees_error htexts.symm hcases
    have hne := Report.draw_ne f ⟨"Lexer error", ⟨0, byteSize (texts m.pieces),
      byteSize (texts m.pieces) + (m.rest.head?.map Char.utf8Size).getD 0, o.message⟩⟩
    have hall := Reporter.renderAll_append hplain hrender
    rw [if_neg hne] at hall
    refine ⟨_, _, _, rfl, .inr rfl, fun u _ => hother u, hall, ?_, ?_, ?_⟩
    · simp
    · simp [Token.error]
    · intro _
      exact ⟨_, _, hdiag, hrender, rfl, hagree⟩

/-- The error on the second line of a text, after a comment of three bytes and two characters. -/
theorem report_agrees_second_line :
    let f : SourceFile := ⟨"a.lisp", ";é\n(é"⟩
    let t : Token := .error "Unexpected é" ⟨2, 1, 5⟩
    f.text.utf8ByteSize ≤ counterMax ∧ ∃ ts d drawn, tokenize? f.text = .ok (ts ++ [t]) ∧
      (Reporter.empty.addFile f).2.diagnose 0 t = .ok (some d) ∧
      Reporter.renderAll f (ts ++ [t]) = .ok [drawn] ∧ Report.Agrees f t d drawn := by
  intro f t
  have hsize : f.text.utf8ByteSize ≤ counterMax := by decide
  obtain ⟨ts, u, reports, htok, -, -, hall, -, -, herr⟩ := report_agrees f hsize
  have hts : tokenize f.text = [⟨.comment, ";é", ⟨1, 0, 0⟩⟩, ⟨.whitespace, "\n", ⟨1, 3, 3⟩⟩,
      ⟨.openParen, "(", ⟨2, 0, 4⟩⟩] ++ [t] := by decide +kernel
  have hts : tokenize? f.text = _ := (tokenize_eq hsize).1.trans (congrArg Except.ok hts)
  obtain ⟨-, hu⟩ := List.append_inj' (Except.ok.inj (htok.symm.trans hts)) rfl
  obtain rfl := (List.cons.inj hu).1
  obtain ⟨d, drawn, hdiag, -, rfl, hagree⟩ := herr rfl
  exact ⟨hsize, ts, d, drawn, htok, hdiag, hall, hagree⟩

end ParenLex
