import InterfaceForms.Text.Quoted

/-!
# Outlines

An outline shows nested data over several lines. A group has a head, which may be empty, and items
between brackets; each item stands on a line of its own, four spaces deeper than its group and
with a comma after it, and may carry a label. A group without items stays on one line.
-/

namespace InterfaceForms

inductive Outline
  | leaf (text : Text)
  | group (head : Text) (left right : Char) (items : List (Text × Outline))

namespace Outline

/-! ## Forms of data -/

def quoted (t : Text) : Outline := .leaf (Text.quoteDebug t)

def bool (b : Bool) : Outline := .leaf (if b then "true".toList else "false".toList)

def list (items : List Outline) : Outline := .group [] '[' ']' (items.map fun o => ([], o))

/-- A constructor with unnamed arguments. -/
def tuple (head : String) (items : List Outline) : Outline :=
  .group head.toList '(' ')' (items.map fun o => ([], o))

/-- A constructor with named arguments. -/
def record (head : String) (fields : List (String × Outline)) : Outline :=
  .group (head.toList ++ [' ']) '\x7b' '\x7d'
    (fields.map fun (name, o) => (name.toList ++ ": ".toList, o))

def option : Option Outline → Outline
  | none => .leaf "None".toList
  | some o => tuple "Some" [o]

/-- The entries of a map, under their quoted keys. -/
def map (entries : List (Text × Outline)) : Outline :=
  .group [] '\x7b' '\x7d' (entries.map fun (key, o) => (Text.quoteDebug key ++ ": ".toList, o))

/-! ## Text -/

def indentation (depth : Nat) : Text := List.replicate (4 * depth) ' '

mutual
/-- The text of an outline that stands at a depth. -/
def renderAt (depth : Nat) : Outline → Text
  | .leaf t => t
  | .group head left right [] => head ++ [left, right]
  | .group head left right items =>
    head ++ left :: '\n' :: renderItems (depth + 1) items ++ indentation depth ++ [right]
def renderItems (depth : Nat) : List (Text × Outline) → Text
  | [] => []
  | (label, o) :: rest =>
    indentation depth ++ label ++ renderAt depth o ++ ",\n".toList ++ renderItems depth rest
end

def render (o : Outline) : Text := renderAt 0 o

end Outline

end InterfaceForms
