import InterfaceForms.Text.Basic
import InterfaceForms.Text.Word

/-!
# Headers

A header opens a declaration: `interface` or `type`, perhaps after `export` and `declare`, and a
name. What follows the name tells a block of members from an alias.
-/

namespace InterfaceForms

structure Header where
  name : Text
  /-- What follows the name, trimmed. -/
  rest : Text
  deriving DecidableEq, Repr

namespace Text

/-- What follows the word `word` and the blanks after it, of which there is at least one. -/
def dropWord? (word : Text) (t : Text) : Option Text :=
  match dropStart? word t with
  | some (c :: rest) => if isBlank c then some (trimStart rest) else none
  | _ => none

end Text

namespace Header

def startsName (c : Char) : Bool := c.isAlpha || c = '_' || c = '$'

def continuesName (c : Char) : Bool := Text.isWordChar c || c = '$'

/-- The name at the start of a text, and the rest. -/
def cutName? : Text → Option (Text × Text)
  | [] => none
  | c :: t =>
    if startsName c then some (c :: t.takeWhile continuesName, t.dropWhile continuesName) else none

/-- The header in a line, if there is one. A line break after the name leaves none. -/
def ofLine? (line : Text) : Option Header := do
  let line := (Text.dropWord? "export".toList line).getD line
  let line := (Text.dropWord? "declare".toList line).getD line
  let line ← Text.dropWord? "interface".toList line <|> Text.dropWord? "type".toList line
  let (name, rest) ← cutName? line
  let rest := Text.trimStart rest
  if rest.contains '\n' then none else some ⟨name, Text.trim rest⟩

/-- The expression after `=` or `:` if the header declares an alias. A header that ends in an
opening brace, or has neither sign after the name, opens a block. -/
def aliasExpr? (h : Header) : Option Text :=
  if Text.endsWith '\x7b' h.rest then none
  else
    match h.rest with
    | '=' :: expr => some (Text.trim expr)
    | ':' :: expr => some (Text.trim expr)
    | _ => none

end Header

end InterfaceForms
