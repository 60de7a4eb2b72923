import InterfaceForms.Toml.Scalar

/-!
# Strings of settings documents

A basic string stands between double quotes and knows escapes, a literal string stands between
apostrophes and knows none. Between three of its marks a string may span lines; the marks that end
it may follow one or two that belong to it.
-/

namespace InterfaceForms.Toml

/-- A tab, or any character but a control character. -/
def isPlainChar (c : Char) : Bool := c = '\t' || (32 ≤ c.toNat && c.toNat ≠ 127)

/-- The character that an escape of one letter stands for. -/
def escaped? : Char → Option Char
  | 'b' => some '\x08'
  | 't' => some '\t'
  | 'n' => some '\n'
  | 'f' => some '\x0c'
  | 'r' => some '\r'
  | '"' => some '"'
  | '\\' => some '\\'
  | _ => none

/-- The character with a hexadecimal number. -/
def numbered? (digits : Text) : Option Char :=
  let n := digitsInBase 16 digits
  if digits.all isHexDigit && n.isValidChar then some (.ofNat n) else none

/-- Puts a character in front of what is read, if there is one. -/
def consChar (c? : Option Char) (r : Option (Text × Text)) : Option (Text × Text) := do
  let c ← c?
  let (t, rest) ← r
  return (c :: t, rest)

/-- The rest of a basic string on one line, and what follows it. -/
def basicLine : Text → Option (Text × Text)
  | [] => none
  | '"' :: t => some ([], t)
  | '\\' :: 'u' :: a :: b :: c :: d :: t => consChar (numbered? [a, b, c, d]) (basicLine t)
  | '\\' :: 'U' :: a :: b :: c :: d :: e :: f :: g :: h :: t =>
    consChar (numbered? [a, b, c, d, e, f, g, h]) (basicLine t)
  | '\\' :: c :: t => consChar (escaped? c) (basicLine t)
  | c :: t => if isPlainChar c then consChar (some c) (basicLine t) else none

/-- The rest of a literal string on one line. -/
def literalLine : Text → Option (Text × Text)
  | [] => none
  | c :: t =>
    if c = '\x27' then some ([], t)
    else if isPlainChar c then consChar (some c) (literalLine t)
    else none

/-- What a backslash at the end of a line has skipped so far. -/
inductive Skip
  | nothing
  /-- Blanks, with the end of the line still to come. -/
  | blanks
  /-- The end of the line. -/
  | lines

/-- The rest of a basic string over several lines. -/
def basicLines (skip : Skip) : Text → Option (Text × Text)
  | [] => none
  | c :: t =>
    match skip with
    | .blanks =>
      if c = ' ' || c = '\t' then basicLines .blanks t
      else if c = '\n' then basicLines .lines t
      else if c = '\r' && t.head? = some '\n' then basicLines .blanks t
      else none
    | .lines =>
      if c = ' ' || c = '\t' || c = '\n' then basicLines .lines t
      else if c = '\r' && t.head? = some '\n' then basicLines .lines t
      else plain c t
    | .nothing => plain c t
where
  plain (c : Char) (t : Text) : Option (Text × Text) :=
    match c, t with
    | '"', '"' :: '"' :: '"' :: '"' :: rest => some (['"', '"'], rest)
    | '"', '"' :: '"' :: '"' :: rest => some (['"'], rest)
    | '"', '"' :: '"' :: rest => some ([], rest)
    | '\\', 'u' :: a :: b :: c :: d :: rest =>
      consChar (numbered? [a, b, c, d]) (basicLines .nothing rest)
    | '\\', 'U' :: a :: b :: c :: d :: e :: f :: g :: h :: rest =>
      consChar (numbered? [a, b, c, d, e, f, g, h]) (basicLines .nothing rest)
    | '\\', d :: rest =>
      if d = ' ' || d = '\t' || d = '\n' || d = '\r' then basicLines .blanks (d :: rest)
      else consChar (escaped? d) (basicLines .nothing rest)
    | '\r', '\n' :: rest => consChar (some '\n') (basicLines .nothing rest)
    | c, t => if c = '\n' || isPlainChar c then consChar (some c) (basicLines .nothing t) else none

/-- The rest of a literal string over several lines. -/
def literalLines : Text → Option (Text × Text)
  | [] => none
  | '\x27' :: '\x27' :: '\x27' :: '\x27' :: '\x27' :: t => some (['\x27', '\x27'], t)
  | '\x27' :: '\x27' :: '\x27' :: '\x27' :: t => some (['\x27'], t)
  | '\x27' :: '\x27' :: '\x27' :: t => some ([], t)
  | '\r' :: '\n' :: t => consChar (some '\n') (literalLines t)
  | c :: t => if c = '\n' || isPlainChar c then consChar (some c) (literalLines t) else none

/-- Leaves out a line break right after the marks that open a string over several lines. -/
def dropLineBreak : Text → Text
  | '\n' :: t => t
  | '\r' :: '\n' :: t => t
  | t => t

/-- The string at the start of a text, and the rest. -/
def cutString? : Text → Option (Text × Text)
  | '"' :: '"' :: '"' :: t => basicLines .nothing (dropLineBreak t)
  | '"' :: t => basicLine t
  | '\x27' :: '\x27' :: '\x27' :: t => literalLines (dropLineBreak t)
  | '\x27' :: t => literalLine t
  | _ => none

end InterfaceForms.Toml
