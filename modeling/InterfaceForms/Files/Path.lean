import InterfaceForms.Text.Basic

/-!
# Paths of files

A path is a text of names with slashes between them.
-/

namespace InterfaceForms.Path

/-- The pieces between slashes. -/
def pieces : Text → List Text
  | [] => [[]]
  | c :: t => if c = '/' then [] :: pieces t else (pieces t).modifyHead (c :: ·)

/-- The path to a name in a directory. -/
def join (directory name : Text) : Text :=
  if directory = [] then name
  else if Text.endsWith '/' directory then directory ++ name
  else directory ++ '/' :: name

/-- The names on the path. Empty pieces and `.` say nothing, except a `.` at the front; a slash at
the front is a name of its own. -/
def components (path : Text) : List Text :=
  match pieces path with
  | [] => []
  | first :: rest =>
    let rest := rest.filter fun piece => piece ≠ [] && piece ≠ ['.']
    if path = [] then [] else if first = [] then ['/'] :: rest else first :: rest

/-- The root comes first, then `.`, then `..`, then any other name. -/
def rank (name : Text) : Nat :=
  if name = ['/'] then 0 else if name = ['.'] then 1 else if name = ['.', '.'] then 2 else 3

/-- The names compare one after another, those of one rank by their code points. -/
def le (left right : Text) : Bool := compareNames (components left) (components right) != .gt
where
  compareText : Text → Text → Ordering
    | [], [] => .eq
    | [], _ :: _ => .lt
    | _ :: _, [] => .gt
    | c :: t, d :: u => (compare c.toNat d.toNat).then (compareText t u)
  compareNames : List Text → List Text → Ordering
    | [], [] => .eq
    | [], _ :: _ => .lt
    | _ :: _, [] => .gt
    | t :: ts, u :: us =>
      ((compare (rank t) (rank u)).then (compareText t u)).then (compareNames ts us)

/-- Drops slashes, and pieces `.` after them, from the front of a path read backwards; a slash
alone is kept. -/
def dropTail : Text → Text
  | ['/'] => ['/']
  | '/' :: t => dropTail t
  | '.' :: '/' :: t => dropTail ('/' :: t)
  | t => t

/-- The path without its last name; the root has none. -/
def parent? (path : Text) : Option Text :=
  let backwards := dropTail path.reverse
  if backwards = [] || backwards = ['/'] then none
  else some (dropTail (backwards.dropWhile (· ≠ '/'))).reverse

/-- What follows the last point in the last name, unless the name starts with that point. -/
def extension? (path : Text) : Option Text :=
  let name := (dropTail path.reverse).takeWhile (· ≠ '/')
  let suffix := name.takeWhile (· ≠ '.')
  match name.dropWhile (· ≠ '.') with
  | '.' :: _ :: _ => if name = ['.', '.'] then none else some suffix.reverse
  | _ => none

end InterfaceForms.Path
