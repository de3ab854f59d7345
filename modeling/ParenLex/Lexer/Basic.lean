import ParenLex.LexError
import ParenLex.Place
import ParenLex.Reader
import ParenLex.Token
import ParenLex.Word

/-!
# The lexer

A lexer takes one step at a time. Each step starts from a mode, takes at most one token's worth of
characters from the reader, and yields the token, if it made one, and the mode that follows. At the
top level only open parens, comments and blanks may stand; words and close parens need an open
paren around them. A step that cannot go on leaves mark, line and depth alone and takes back what it
read.
-/

namespace ParenLex

/-- What the next step expects: `text` outside of all parens and `insideParen` within some look at
the next character and choose; the others take a token of their kind. -/
inductive Mode
  | text | openParen | insideParen | identifier | number | closeParen | whitespace | comment
  deriving DecidableEq

/-- Why a scan stopped: the input ended at the top level, an error was met, or it was told to. -/
inductive Halt
  | exhausted | failed | cancelled
  deriving DecidableEq

def Mode.name : Mode → String
  | text => "Text"
  | openParen => "OpenParen"
  | insideParen => "InsideParen"
  | identifier => "Identifier"
  | number => "Number"
  | closeParen => "CloseParen"
  | whitespace => "Whitespace"
  | comment => "Comment"

def Halt.name : Halt → String
  | exhausted => "Exhausted"
  | failed => "Failed"
  | cancelled => "Cancelled"

inductive Transition
  | proceed (m : Mode)
  | halt (h : Halt)
  | fault (f : CounterFault)
  deriving DecidableEq

/-- The outcome of a step. -/
structure Step where
  token : Option Token
  next : Transition
  deriving DecidableEq

/-- A lexer: its reader, the place after the last token, the line the reader is on, and the number
of open parens. -/
structure Lexer where
  reader : Reader
  mark : Place
  line : Line
  depth : Nat
  deriving DecidableEq

namespace Lexer

def ofFeed (f : Feed) : Lexer := ⟨.ofFeed f, .start, Place.start.line, 0⟩

/-- The lexer as if `d` parens had been opened before. -/
def withDepth (l : Lexer) (d : Nat) : Lexer := { l with depth := d }

/-- Where the next token starts. -/
def position (l : Lexer) : Position := l.mark.position

/-- Where the reader is. -/
def here (l : Lexer) : Place := ⟨l.reader.offset, l.line⟩

/-- The token that would end the input here. -/
def eofToken (l : Lexer) : Token := .eof l.here.position

/-- The mode between tokens. -/
def between (l : Lexer) : Mode := if l.depth = 0 then .text else .insideParen

/-- The failure met by the reader, handed over once. -/
def takeFailure (l : Lexer) : Option ReadError × Lexer :=
  (l.reader.takeFailure.1, { l with reader := l.reader.takeFailure.2 })

/-! ### Reading -/

def peek (l : Lexer) : Option Char × Lexer :=
  (l.reader.peek.1, { l with reader := l.reader.peek.2 })

def takeWhile (p : Char → Bool) (l : Lexer) : List Char × Lexer :=
  ((l.reader.takeWhile p).1, { l with reader := (l.reader.takeWhile p).2 })

/-- Takes the next character if it is `c`, and says whether it was. -/
def accept (c : Char) (l : Lexer) : Bool × Lexer :=
  match l.reader.next with
  | (some d, r) =>
    if d = c then (true, { l with reader := r }) else (false, { l with reader := r.backup })
  | (none, r) => (false, { l with reader := r })

/-! ### Outcomes -/

def goto (l : Lexer) (m : Mode) : Step × Lexer := (⟨none, .proceed m⟩, l)

/-- A token from the mark to the reader; the mark moves on. -/
def emit (l : Lexer) (k : Kind) (text : List Char) (m : Mode) : Step × Lexer :=
  (⟨some ⟨k, String.ofList text, l.position⟩, .proceed m⟩, { l with mark := l.here })

/-- An error at the mark, which stays. -/
def fail (l : Lexer) (e : LexError) : Step × Lexer :=
  (⟨some (.error e.message l.position), .halt .failed⟩, l)

/-- What stands at the end of the characters: bytes that made none, or nothing. -/
def ending (l : Lexer) : LexError :=
  match l.reader.undecoded? with
  | some bs => .bytes bs
  | none => .endOfInput

/-- An error for whatever comes next. -/
def unexpected (l : Lexer) : Step × Lexer :=
  match l.peek with
  | (some c, l) => l.fail (.character c)
  | (none, l) => l.fail l.ending

/-! ### Modes -/

def text (l : Lexer) : Step × Lexer :=
  match l.peek with
  | (some c, l) =>
    match Kind.ofChar c with
    | .openParen => l.goto .openParen
    | .comment => l.goto .comment
    | .whitespace => l.goto .whitespace
    | _ => l.fail (.bytes (String.utf8EncodeChar c))
  | (none, l) =>
    if l.reader.undecoded?.isSome then l.fail l.ending else (⟨none, .halt .exhausted⟩, l)

def insideParen (l : Lexer) : Step × Lexer :=
  if l.depth = 0 then l.goto .text
  else
    match l.peek with
    | (some c, l) =>
      if isDigit c then l.goto .number
      else if isWordChar c then l.goto .identifier
      else
        match Kind.ofChar c with
        | .closeParen => l.goto .closeParen
        | .openParen => l.goto .openParen
        | .whitespace => l.goto .whitespace
        | .comment => l.goto .comment
        | _ => l.unexpected
    | (none, l) => l.unexpected

def openParen (l : Lexer) : Step × Lexer :=
  match l.accept '(' with
  | (true, l) =>
    if l.depth < counterMax then { l with depth := l.depth + 1 }.emit .openParen ['('] .insideParen
    else (⟨none, .fault .overflow⟩, l)
  | (false, l) => l.unexpected

def closeParen (l : Lexer) : Step × Lexer :=
  if l.depth = 0 then l.fail (.character ')')
  else
    match l.accept ')' with
    | (true, l) => { l with depth := l.depth - 1 }.emit .closeParen [')'] .insideParen
    | (false, l) => l.unexpected

def identifier (l : Lexer) : Step × Lexer :=
  match l.takeWhile isWordChar with
  | ([], l) => l.unexpected
  | (word, l) => l.emit (.ofWord word) word .insideParen

/-- The digits after a point, if a point comes next. -/
def fraction? (l : Lexer) : Option (List Char) × Lexer :=
  match l.accept '.' with
  | (true, l) => (some (l.takeWhile isDigit).1, (l.takeWhile isDigit).2)
  | (false, l) => (none, l)

/-- Digits, a fraction, and the word characters after them. -/
def number (l : Lexer) : Step × Lexer :=
  match l.takeWhile isDigit with
  | ([], l) => l.unexpected
  | (digits, l) =>
    match l.fraction? with
    | (fraction, l) =>
      match l.takeWhile isWordChar with
      | (rest, l) =>
        let n : Numeral := ⟨digits, fraction, rest⟩
        l.emit n.kind n.text .insideParen

def whitespace (l : Lexer) : Step × Lexer :=
  match l.takeWhile isBlank with
  | ([], l) => l.unexpected
  | (blanks, k) =>
    { k with line := l.line.advance l.reader.offset blanks }.emit .whitespace blanks l.between

/-- From the mark up to the end of the line, which is left for the next token. -/
def comment (l : Lexer) : Step × Lexer :=
  match l.accept ';' with
  | (true, l) =>
    match l.takeWhile (· ≠ '\n') with
    | (body, l) =>
      match l.peek with
      | (some _, l) => l.emit .comment (';' :: body) .whitespace
      | (none, l) => l.emit .comment (';' :: body) l.between
  | (false, l) => l.unexpected

/-- One step from a mode. -/
def step (l : Lexer) : Mode → Step × Lexer
  | .text => l.text
  | .openParen => l.openParen
  | .insideParen => l.insideParen
  | .identifier => l.identifier
  | .number => l.number
  | .closeParen => l.closeParen
  | .whitespace => l.whitespace
  | .comment => l.comment

end Lexer

end ParenLex
