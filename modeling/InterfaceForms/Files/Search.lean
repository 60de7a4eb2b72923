import InterfaceForms.Files.Path
import InterfaceForms.Files.Pattern
import InterfaceForms.Files.World

/-!
# Searching files by a pattern

A pattern of a path is read component by component. One without wildcards is looked up; any other
is held against the names in the directory reached. A path that is found in two ways is given
twice.

* `World.search`: the paths that match, in order.
-/

namespace InterfaceForms

namespace Pattern

/-- The component `**`. -/
def isAnyDirectories (p : Pattern) : Bool := p = [.anyDirectories]

/-- The components of a pattern of a path, without the slash that makes it absolute. A slash at the
end parts nothing. -/
def components (t : Text) : List Text :=
  let pieces := Path.pieces (if Text.startsWith '/' t then t.tail else t)
  if pieces.getLast? = some [] then pieces.dropLast else pieces

end Pattern

namespace World

variable {m : Type → Type} [Monad m]

/-- A path at the end of a pattern, which must be a directory if the pattern ends in a slash. -/
def ending (world : World m) (needDirectory : Bool) (path : Text) : m (List Text) := do
  if needDirectory && !(← world.isDirectory path) then return [] else return [path]

/-- The matches of an entry of a directory, whose path is `path` and whose name is `name`. What is
inside a directory is searched by `descend`. -/
def visit (world : World m) (needDirectory : Bool) (descend : List Pattern → Text → m (List Text))
    (patterns : List Pattern) (name path : Text) : m (List Text) := do
  match patterns with
  | [] => return []
  | p :: rest =>
    if p.isAnyDirectories then
      let rest := rest.dropWhile Pattern.isAnyDirectories
      if ← world.isDirectory path then
        let below ← descend (p :: rest) path
        return below ++ (← if rest = [] then pure [path] else byName rest)
      else if rest = [] then return []
      else byName rest
    else byName patterns
where
  byName : List Pattern → m (List Text)
    | [] => return []
    | p :: rest => do
      if !p.accepts name then return []
      else if rest = [] then world.ending needDirectory path
      else if ← world.isDirectory path then descend rest path
      else return []

/-- The matches of the patterns below a path, `depth` directories deep at most. -/
def searchBelow (world : World m) (needDirectory : Bool) :
    Nat → List Pattern → Text → m (List Text)
  | 0, _, _ => return []
  | _ + 1, [], _ => return []
  | depth + 1, p :: rest, path => do
    let reached (next : Text) : m (List Text) :=
      if rest = [] then world.ending needDirectory next
      else searchBelow world needDirectory depth rest next
    let child (name : Text) : Text :=
      if Path.components path = [['.']] then name else Path.join path name
    match p.literal? with
    | some name =>
      let found ← if name = ['.'] || name = ['.', '.'] then world.isDirectory path
        else world.exists? (child name)
      if found then reached (child name) else return []
    | none =>
      if ← world.isDirectory path then
        let inside ← (← world.entries path).mapM fun name =>
          visit world needDirectory (searchBelow world needDirectory depth) (p :: rest) name
            (child name)
        let dots := [['.'], ['.', '.']].filter fun name =>
          p.head? = some (.char '.') && p.accepts name
        let special ← dots.mapM fun name => reached (Path.join path name)
        return inside.flatten ++ special.flatten
      else return []

/-- A bound on the depth of directories, above what the length of a path admits. -/
def maxDepth : Nat := 4096

/-- The paths that match a pattern, in the order of their names. -/
def search (world : World m) (t : Text) : m (Except PatternError (List Text)) := do
  match (do let _ ← Pattern.read t; (Pattern.components t).mapM Pattern.read) with
  | .error e => return .error e
  | .ok patterns =>
    let origin := if Text.startsWith '/' t then ['/'] else ['.']
    let found ← world.searchBelow (Text.endsWith '/' t) maxDepth patterns origin
    return .ok (found.mergeSort Path.le)

end World

end InterfaceForms
