import InterfaceForms.Text.Basic

/-!
# Patterns of file names

In a pattern `?` stands for any character, `*` for any run of characters and `[...]` for one
character of a class. The component `**` stands for any number of directories.

* `Pattern.read`: reads a pattern, or says where it is malformed.
* `Pattern.accepts`: whether a name matches.
-/

namespace InterfaceForms

/-- The characters from `low` to `high`. -/
structure CharRange where
  low : Char
  high : Char
  deriving DecidableEq, Repr

inductive PatternToken
  | char (c : Char)
  | anyChar
  | anyRun
  /-- The component `**`. -/
  | anyDirectories
  /-- A character inside the ranges, or outside of them if `negated`. -/
  | charClass (negated : Bool) (ranges : List CharRange)
  deriving DecidableEq, Repr

abbrev Pattern := List PatternToken

inductive PatternFault
  | tooManyStars
  | partialComponent
  | badClass
  deriving DecidableEq, Repr

def PatternFault.message : PatternFault → String
  | .tooManyStars => "wildcards are either regular `*` or recursive `**`"
  | .partialComponent => "recursive wildcards must form a single path component"
  | .badClass => "invalid range pattern"

/-- A fault and the number of characters before it. -/
structure PatternError where
  position : Nat
  fault : PatternFault
  deriving DecidableEq, Repr

def PatternError.message (e : PatternError) : String :=
  "Pattern syntax error near position " ++ toString e.position ++ ": " ++ e.fault.message

namespace Pattern

/-! ## Reading -/

/-- The ranges that the characters of a class write. -/
def ranges : Text → List CharRange
  | low :: '-' :: high :: t => ⟨low, high⟩ :: ranges t
  | c :: t => ⟨c, c⟩ :: ranges t
  | [] => []

/-- The class after an opening bracket, with the number of characters read. The first character
of a class, after a `!` for negation, may be a closing bracket. -/
def readClass? (t : Text) : Option (PatternToken × Nat) :=
  match t with
  | '!' :: first :: rest => close? true first rest 2
  | first :: rest => if first = '!' then none else close? false first rest 1
  | [] => none
where
  close? (negated : Bool) (first : Char) (rest : Text) (before : Nat) :
      Option (PatternToken × Nat) :=
    if rest.contains ']' then
      let inner := rest.takeWhile (· ≠ ']')
      some (.charClass negated (ranges (first :: inner)), before + inner.length + 1)
    else none

/-- Reads what is left of a pattern, with `skip` characters of it already read, from `position`
on; `last` is the character before. -/
def readFrom (skip position : Nat) (last : Option Char) : Text → Except PatternError Pattern
  | [] => .ok []
  | c :: t =>
    match skip with
    | skip + 1 => readFrom skip (position + 1) (some c) t
    | 0 =>
      if c = '?' then (.anyChar :: ·) <$> readFrom 0 (position + 1) (some c) t
      else if c = '*' then
        let stars := 1 + (t.takeWhile (· = '*')).length
        let after := (t.dropWhile (· = '*')).head?
        if 2 < stars then .error ⟨position + 2, .tooManyStars⟩
        else if stars = 1 then (.anyRun :: ·) <$> readFrom 0 (position + 1) (some c) t
        else if last.any (· ≠ '/') then .error ⟨position - 1, .partialComponent⟩
        else if after.any (· ≠ '/') then .error ⟨position + 2, .partialComponent⟩
        else (.anyDirectories :: ·) <$> readFrom 2 (position + 1) (some c) t
      else if c = '[' then
        match readClass? t with
        | some (token, length) => (token :: ·) <$> readFrom length (position + 1) (some c) t
        | none => .error ⟨position, .badClass⟩
      else (.char c :: ·) <$> readFrom 0 (position + 1) (some c) t

def read (t : Text) : Except PatternError Pattern := readFrom 0 0 none t

end Pattern

/-! ## Matching -/

def CharRange.contains (r : CharRange) (c : Char) : Bool := r.low ≤ c && c ≤ r.high

namespace PatternToken

/-- A token that stands for a run of characters. -/
def isRun : PatternToken → Bool
  | .anyRun => true
  | .anyDirectories => true
  | _ => false

/-- Whether a token that is no run stands for a character. -/
def acceptsChar : PatternToken → Char → Bool
  | .char c, d => c = d
  | .anyChar, _ => true
  | .charClass negated ranges, c => (ranges.any fun r => r.contains c) != negated
  | _, _ => false

end PatternToken

namespace Pattern

/-- For a pattern and each of its ends, longest first, whether it accepts the empty text. -/
def emptyRow : Pattern → List Bool
  | [] => [true]
  | token :: p =>
    let row := emptyRow p
    (token.isRun && row.headD false) :: row

/-- From the answers of a pattern and its ends on a text, their answers on the text with a character
in front. A run takes the character or ends before it. -/
def nextRow (c : Char) : Pattern → List Bool → List Bool
  | [], _ => [false]
  | token :: p, row =>
    let below := nextRow c p row.tail
    (if token.isRun then below.headD false || row.headD false
      else token.acceptsChar c && row.tail.headD false) :: below

/-- For a pattern and each of its ends, longest first, whether it accepts the text. All ends are
held against the text together, so that many runs cost no more than other tokens. -/
def row (p : Pattern) (t : Text) : List Bool := t.foldr (fun c row => nextRow c p row) (emptyRow p)

def accepts (p : Pattern) (t : Text) : Bool := (row p t).headD false

theorem row_cons (token : PatternToken) (p : Pattern) (t : Text) :
    row (token :: p) t = accepts (token :: p) t :: row p t := by
  induction t with
  | nil => rfl
  | cons c t ih =>
    have hrow : row (token :: p) (c :: t) = nextRow c (token :: p) (row (token :: p) t) := rfl
    have htail : (row (token :: p) t).tail = row p t := by rw [ih, List.tail_cons]
    rw [accepts, hrow, nextRow, htail]
    rfl

theorem accepts_nil (t : Text) : accepts [] t = (t = [] : Bool) := by
  cases t <;> rfl

theorem accepts_cons_nil (token : PatternToken) (p : Pattern) :
    accepts (token :: p) [] = (token.isRun && accepts p []) := rfl

/-- A run accepts what the rest accepts, and goes on over one character more. -/
theorem accepts_run {token : PatternToken} (h : token.isRun = true) (p : Pattern) (c : Char)
    (t : Text) :
    accepts (token :: p) (c :: t) = (accepts p (c :: t) || accepts (token :: p) t) := by
  have hrow : row (token :: p) (c :: t) = nextRow c (token :: p) (row (token :: p) t) := rfl
  rw [accepts, hrow, nextRow, if_pos h, row_cons]
  rfl

theorem accepts_char {token : PatternToken} (h : token.isRun = false) (p : Pattern) (c : Char)
    (t : Text) : accepts (token :: p) (c :: t) = (token.acceptsChar c && accepts p t) := by
  have hrow : row (token :: p) (c :: t) = nextRow c (token :: p) (row (token :: p) t) := rfl
  rw [accepts, hrow, nextRow, if_neg (by simp [h]), row_cons]
  rfl

/-- The text that a pattern without wildcards is. -/
def literal? (p : Pattern) : Option Text :=
  p.mapM fun
    | .char c => some c
    | _ => none

end Pattern

end InterfaceForms
