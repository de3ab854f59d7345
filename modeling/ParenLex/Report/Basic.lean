import ParenLex.Report.Location
import ParenLex.Token

/-!
# Diagnostics

A diagnostic points at the place of an error token in a file of known texts: at the character that
starts there, or at no character where the text has ended.

* `diagnose_of_not_isError`: other tokens have no diagnostic, whatever the file.
-/

namespace ParenLex

/-- Why a diagnostic could not be made. -/
inductive ReportError
  | fileMissing
  deriving DecidableEq

def ReportError.message : ReportError → String
  | fileMissing => "diagnostic rendering failed: file missing"

structure SourceFile where
  name : String
  text : String

namespace Report

/-- The bytes of a file from `first` up to `last`, with what is said of them. -/
structure Label where
  file : Nat
  first : Nat
  last : Nat
  message : String

/-- An error with the label it is shown at. -/
structure Diagnostic where
  message : String
  label : Label

/-- Diagnostics are about errors. -/
def Diagnostic.severity (_ : Diagnostic) : String := "error"

end Report

/-- Known files, by their number. -/
structure Reporter where
  files : Array SourceFile

namespace Reporter

open Report

def empty : Reporter := ⟨#[]⟩

/-- Adds a file and gives its number. -/
def addFile (r : Reporter) (f : SourceFile) : Nat × Reporter :=
  (r.files.size, ⟨r.files.push f⟩)

/-- The bytes of the character at an offset; none at the end of the text, where a greater offset is
put, or within a character. -/
def labelRange (f : SourceFile) (offset : Nat) : Nat × Nat :=
  let first := min offset (byteSize f.text.toList)
  (first, first + ((charAt? f.text.toList first).map Char.utf8Size).getD 0)

/-- The diagnostic of an error token. Other tokens have none. -/
def diagnose (r : Reporter) (file : Nat) (t : Token) : Except ReportError (Option Diagnostic) :=
  if t.isError then
    match r.files[file]? with
    | some f =>
      let (first, last) := labelRange f t.position.offset
      .ok (some ⟨"Lexer error", ⟨file, first, last, t.text⟩⟩)
    | none => .error .fileMissing
  else .ok none

theorem diagnose_of_not_isError {r : Reporter} {file : Nat} {t : Token} (h : t.isError = false) :
    r.diagnose file t = .ok none := by simp [diagnose, h]

end Reporter

end ParenLex
