import InterfaceForms.Expression.Quoting
import InterfaceForms.Text.Letter

/-!
# Segments

A text is cut into segments, the logical lines that headers and members are read from. A segment
ends at a brace, a semicolon or a newline that stands outside literals, comments and open `<` or
`(`. The cutting is a pass over the characters: a `Cutter` is what is known after some of them,
and `Cutter.step` reads one more.

* `Segment.cut`: the segments of a text.
* `Cutter.run_append`: reading a text is reading its parts one after the other.
-/

namespace InterfaceForms

structure Segment where
  /-- Trimmed; a comment at the end of the line follows after ` // `. -/
  text : Text
  /-- The line of the first character, counted from 1. -/
  line : Nat
  /-- The block comment read before it. -/
  doc : Option Text
  deriving DecidableEq, Repr

/-- A comment at the end of a line belongs to the segment before it, unless that is a brace or
ends in an opening brace. -/
def Segment.takesComment (s : Segment) : Bool :=
  s.text ≠ ['\x7d'] && !Text.endsWith '\x7b' s.text

/-- What the next character means. -/
inductive Mode
  | code
  /-- A slash has been read that may open a comment. -/
  | slash
  | literal (mark : Char)
  /-- In a literal, after a backslash. -/
  | escape (mark : Char)
  /-- The characters read of the comment, last first. -/
  | lineComment (read : Text)
  | blockComment (read : Text)
  deriving DecidableEq, Repr

structure Cutter where
  mode : Mode
  /-- The segments read, last first. -/
  done : List Segment
  /-- The characters of the segment being read, last first. -/
  buffer : Text
  /-- The line of the segment being read. -/
  bufferLine : Nat
  line : Nat
  /-- A block comment that no segment has taken yet. -/
  doc : Option Text
  /-- Open angle brackets. -/
  angles : Nat
  /-- Open parentheses. -/
  parens : Nat
  /-- The character of code read last. -/
  last : Char
  deriving DecidableEq, Repr

namespace Cutter

def start : Cutter := ⟨.code, [], [], 1, 1, none, 0, 0, '\x00'⟩

/-- Inside `<` or `(`, where nothing cuts. -/
def nested (s : Cutter) : Bool := 0 < s.angles + s.parens

/-- Ends the segment being read; a blank one is dropped. -/
def flush (s : Cutter) : Cutter :=
  let text := Text.trim s.buffer.reverse
  if text = [] then { s with buffer := [] }
  else { s with buffer := [], done := ⟨text, s.bufferLine, s.doc⟩ :: s.done, doc := none }

/-- Adds a character; the first one that is not blank fixes the line of the segment. -/
def add (s : Cutter) (c : Char) : Cutter :=
  { s with
    buffer := c :: s.buffer
    bufferLine := if !Text.isBlank c && Text.blank s.buffer then s.line else s.bufferLine
    last := c }

/-- The angle brackets open after `c`. A `<` opens one only after a name, as in `Record<`, and the
arrow `=>` closes none. -/
def anglesAfter (s : Cutter) (c : Char) : Nat :=
  if c = '<' && (Text.isAlphanumeric s.last || s.last = '_' || s.last = '$') then s.angles + 1
  else if c = '>' && s.last ≠ '=' then s.angles - 1
  else s.angles

def parensAfter (s : Cutter) (c : Char) : Nat :=
  if c = '(' then s.parens + 1 else if c = ')' then s.parens - 1 else s.parens

/-- Adds a character of code that does not cut. -/
def addCode (s : Cutter) (c : Char) : Cutter :=
  { s.add c with angles := s.anglesAfter c, parens := s.parensAfter c }

/-- Ends a segment with the opening brace. -/
def openBrace (s : Cutter) : Cutter :=
  { ({ s with buffer := '\x7b' :: s.buffer } : Cutter).flush with last := '\x7b' }

/-- The closing brace is a segment of its own, and a comment before it belongs to nothing. -/
def closeBrace (s : Cutter) : Cutter :=
  let s := s.flush
  { s with done := ⟨['\x7d'], s.line, none⟩ :: s.done, doc := none, last := '\x7d' }

/-- Reads a character of code. -/
def stepCode (s : Cutter) (c : Char) : Cutter :=
  if isQuoteMark c then { s.add c with mode := .literal c }
  else if c = '/' then { s with mode := .slash }
  else if s.nested then
    if c = '\n' then { s with buffer := ' ' :: s.buffer, line := s.line + 1, last := c }
    else s.addCode c
  else if c = '\x7b' then s.openBrace
  else if c = '\x7d' then s.closeBrace
  else if c = ';' then { s.flush with last := c }
  else if c = '\n' then { s.flush with line := s.line + 1, last := c }
  else s.addCode c

/-- Joins the comment at the end of a line to the segment it describes: the one being read, or
the last one if it is of this line. Inside `<` and `(` it is dropped. -/
def endLineComment (s : Cutter) (read : Text) : Cutter :=
  let s := { s with mode := .code }
  let comment := Text.trim (read.reverse.dropWhile (· = '/'))
  let trailer := " // ".toList ++ comment
  if comment = [] || s.nested then s
  else if !Text.blank s.buffer then { s with buffer := trailer.reverse ++ s.buffer }
  else
    match s.done with
    | last :: done =>
      if last.line = s.line && last.takesComment then
        { s with done := { last with text := last.text ++ trailer } :: done }
      else s
    | [] => s

/-- The words of a block comment: its lines without blanks and asterisks on the left. -/
def blockCommentText (body : Text) : Text :=
  let lines := (Text.splitLines body).map fun line =>
    Text.trim ((Text.trim line).dropWhile (· = '*'))
  Text.joinWith [' '] (lines.filter (· ≠ []))

/-- Keeps the comment for the next segment, unless it says nothing. -/
def endBlockComment (s : Cutter) (body : Text) : Cutter :=
  let doc := blockCommentText body
  { s with mode := .code, doc := if doc = [] then s.doc else some doc }

def step (s : Cutter) (c : Char) : Cutter :=
  match s.mode with
  | .code => s.stepCode c
  | .slash =>
    if c = '/' then { s with mode := .lineComment [], last := '/' }
    else if c = '*' then { s with mode := .blockComment [], last := '/' }
    else (({ s with mode := .code } : Cutter).addCode '/').stepCode c
  | .literal mark =>
    if c = '\n' then
      { ({ s with mode := .code, angles := 0, parens := 0 } : Cutter).flush with
        line := s.line + 1 }
    else if c = '\\' then { s with buffer := c :: s.buffer, mode := .escape mark }
    else if c = mark then { s with buffer := c :: s.buffer, mode := .code, last := c }
    else { s with buffer := c :: s.buffer }
  | .escape mark => { s with buffer := c :: s.buffer, mode := .literal mark }
  | .lineComment read =>
    if c = '\n' then (s.endLineComment read).stepCode c
    else { s with mode := .lineComment (c :: read) }
  | .blockComment read =>
    if c = '/' && read.head? = some '*' then s.endBlockComment read.tail.reverse
    else
      { s with
        mode := .blockComment (c :: read)
        line := if c = '\n' then s.line + 1 else s.line }

def run (s : Cutter) (t : Text) : Cutter := t.foldl step s

/-- The end of the text ends what is open. -/
def finish (s : Cutter) : List Segment :=
  let s := match s.mode with
    | .slash => s.addCode '/'
    | .lineComment read => s.endLineComment read
    | .blockComment read => s.endBlockComment read.reverse
    | _ => s
  s.flush.done.reverse

@[simp] theorem run_nil (s : Cutter) : run s [] = s := rfl

@[simp] theorem run_cons (s : Cutter) (c : Char) (t : Text) :
    run s (c :: t) = run (step s c) t := rfl

theorem run_append (s : Cutter) (t u : Text) : run s (t ++ u) = run (run s t) u := by
  simp [run, List.foldl_append]

end Cutter

/-- The segments of a text, in order. -/
def Segment.cut (t : Text) : List Segment := (Cutter.start.run t).finish

end InterfaceForms
