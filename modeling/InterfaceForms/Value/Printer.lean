import InterfaceForms.Number.Expansion
import InterfaceForms.Text.Quoted
import InterfaceForms.Value

/-!
# Values as JSON text

A value is printed on one line without blanks, or over several lines with each item and each entry
on a line of its own, two spaces deeper than what holds it. Empty containers stay on one line.

* `Value.compact`, `Value.pretty`: the two layouts.
-/

namespace InterfaceForms

/-- A floating point number that is not finite has no JSON text and is printed as `null`. -/
def Number.toText : Number → Text
  | .int n => Text.ofInt n
  | .float x => if x.isFinite then x.expansion else "null".toList

namespace Value

def boolText (b : Bool) : Text := if b then "true".toList else "false".toList

/-- The parts between brackets, with commas between them. -/
def enclosed (left right : Char) (parts : List Text) : Text :=
  left :: Text.joinWith [','] parts ++ [right]

mutual
def compact : Value → Text
  | .null => "null".toList
  | .bool b => boolText b
  | .number n => n.toText
  | .string t => Text.quoteJson t
  | .array items => enclosed '[' ']' (compactItems items)
  | .object entries => enclosed '\x7b' '\x7d' (compactEntries entries)
def compactItems : List Value → List Text
  | [] => []
  | v :: rest => v.compact :: compactItems rest
def compactEntries : List (Text × Value) → List Text
  | [] => []
  | (key, v) :: rest => (Text.quoteJson key ++ ':' :: v.compact) :: compactEntries rest
end

/-- A new line with the indentation of a depth. -/
def newLine (depth : Nat) : Text := '\n' :: List.replicate (2 * depth) ' '

/-- The parts between brackets, each on a line of its own; brackets at `depth`. -/
def enclosedLines (left right : Char) (depth : Nat) (parts : List Text) : Text :=
  match parts with
  | [] => [left, right]
  | parts =>
    left :: newLine (depth + 1) ++ Text.joinWith (',' :: newLine (depth + 1)) parts ++
      newLine depth ++ [right]

mutual
/-- The text of a value that stands at a depth. -/
def prettyAt (depth : Nat) : Value → Text
  | .null => "null".toList
  | .bool b => boolText b
  | .number n => n.toText
  | .string t => Text.quoteJson t
  | .array items => enclosedLines '[' ']' depth (prettyItems (depth + 1) items)
  | .object entries => enclosedLines '\x7b' '\x7d' depth (prettyEntries (depth + 1) entries)
def prettyItems (depth : Nat) : List Value → List Text
  | [] => []
  | v :: rest => prettyAt depth v :: prettyItems depth rest
def prettyEntries (depth : Nat) : List (Text × Value) → List Text
  | [] => []
  | (key, v) :: rest =>
    (Text.quoteJson key ++ ": ".toList ++ prettyAt depth v) :: prettyEntries depth rest
end

def pretty (v : Value) : Text := prettyAt 0 v

end Value

end InterfaceForms
