import ParenLex.Report.Basic
import ParenLex.Report.Cells

/-!
# Drawn diagnostics

A diagnostic is drawn as a heading, the name of the file with line and column, and the line itself
with carets below the characters pointed at and the message after them. A point at no character gets
one caret.
-/

namespace ParenLex.Report

/-- The carets for the bytes from `a` up to `b` of a line, and one cell more for its end. -/
def marks (line : List Char) (a b : Nat) : List Char :=
  let size := byteSize line
  (cells line).flatMap (Cell.marks a b) ++ Cell.marks a b ⟨' ', size, size + 1, 1⟩

/-- The heading, the place, and the marked line. -/
def draw (f : SourceFile) (d : Diagnostic) : String :=
  let loc := locate f.text.toList d.label.first
  let a := d.label.first - loc.lineStart
  let b := max (d.label.last - loc.lineStart) (a + 1)
  let number := loc.line.repr
  let pad := String.ofList (List.replicate number.length ' ')
  let line := String.ofList ((cells loc.lineText).flatMap Cell.text)
  let carets := String.ofList (marks loc.lineText a b)
  let note := if d.label.message.isEmpty then "" else " " ++ d.label.message
  d.severity ++ ": " ++ d.message ++ "\n" ++
    pad ++ " ┌─ " ++ f.name ++ ":" ++ number ++ ":" ++ loc.column.repr ++ "\n" ++
    pad ++ " │\n" ++
    number ++ " │ " ++ line ++ "\n" ++
    pad ++ " │ " ++ carets ++ note ++ "\n\n"

end ParenLex.Report

namespace ParenLex.Reporter

/-- The drawn diagnostic of a token, nothing for a token without one. -/
def render (r : Reporter) (file : Nat) (t : Token) : Except ReportError String := do
  match ← r.diagnose file t, r.files[file]? with
  | some d, some f => pure (Report.draw f d)
  | _, _ => pure ""

/-- The drawn diagnostics of tokens of a file, in their order. -/
def renderAll (f : SourceFile) (ts : List Token) : Except ReportError (List String) := do
  let (file, r) := empty.addFile f
  let drawn ← ts.mapM (r.render file)
  pure (drawn.filter fun s => !s.isEmpty)

end ParenLex.Reporter
