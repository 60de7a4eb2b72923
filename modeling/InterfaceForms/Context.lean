import InterfaceForms.Text.Basic

/-!
# Where a type expression stands

Two facts about the place of a type expression decide what is said and done about a name that
nothing declares: the declaration and member in which it is read, and its position in the type.
-/

namespace InterfaceForms

/-- The position of a type expression in the type around it. -/
inductive Position
  | field
  | arrayItem
  | recordValue
  | unionBranch
  deriving DecidableEq, Repr

def Position.name : Position → String
  | .field => "Field"
  | .arrayItem => "ArrayItem"
  | .recordValue => "RecordValue"
  | .unionBranch => "UnionBranch"

/-- The declaration being read and the name of its member, which is empty for the target of an
alias. -/
structure Context where
  declaration : Text
  member : Text
  deriving DecidableEq, Repr

def Context.describe (c : Context) : String :=
  if c.member = [] then "`" ++ c.declaration.str ++ "`"
  else "`" ++ c.declaration.str ++ "." ++ c.member.str ++ "`"

end InterfaceForms
