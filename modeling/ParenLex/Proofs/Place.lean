import ParenLex.Place
import ParenLex.Text.ByteSize

/-!
# Reading on from a place

* `advance_append`: reading one text after another.
* `advance_of_not_mem`: a text without line feeds stays on its line.
-/

namespace ParenLex

theorem Line.advance_append (l : Line) (n : Nat) (cs ds : List Char) :
    l.advance n (cs ++ ds) = (l.advance n cs).advance (n + byteSize cs) ds := by
  induction cs generalizing l n with
  | nil => simp [Line.advance]
  | cons c cs ih => simp [Line.advance, ih, Nat.add_assoc]

theorem Line.advance_of_not_mem {l : Line} {n : Nat} {cs : List Char} (h : '\n' ∉ cs) :
    l.advance n cs = l := by
  induction cs generalizing n with
  | nil => rfl
  | cons c cs ih =>
    rw [List.mem_cons, not_or] at h
    obtain ⟨hc, hcs⟩ := h
    rw [Line.advance, if_neg (Ne.symm hc)]
    exact ih hcs

namespace Place

/-- The place after a text. -/
def advance (p : Place) (cs : List Char) : Place :=
  ⟨p.offset + byteSize cs, p.line.advance p.offset cs⟩

@[simp] theorem offset_advance (p : Place) (cs : List Char) :
    (p.advance cs).offset = p.offset + byteSize cs := rfl

@[simp] theorem advance_nil (p : Place) : p.advance [] = p := rfl

theorem advance_append (p : Place) (cs ds : List Char) :
    p.advance (cs ++ ds) = (p.advance cs).advance ds := by
  simp [advance, Line.advance_append, Nat.add_assoc]

theorem advance_of_not_mem {p : Place} {cs : List Char} (h : '\n' ∉ cs) :
    p.advance cs = ⟨p.offset + byteSize cs, p.line⟩ := by
  rw [advance, Line.advance_of_not_mem h]

end Place

end ParenLex
