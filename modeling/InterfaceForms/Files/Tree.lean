import InterfaceForms.Files.Path
import InterfaceForms.Files.World

/-!
# Trees of files

A tree of files in memory, seen from the directory at its root. Paths are followed as a system
without links follows them; nothing is known of what lies above the root.

* `FileTree.follow`: the place that a path leads to.
* `FileTree.world`: the operations of a world, on a tree.
-/

namespace InterfaceForms

inductive FileTree
  | file (content : ByteArray)
  | directory (entries : List (Text × FileTree))

namespace FileTree

def empty : FileTree := .directory []

/-- Puts a tree in the place of the entry of its name, or at the end. -/
def putEntry (name : Text) (node : FileTree) : List (Text × FileTree) → List (Text × FileTree)
  | [] => [(name, node)]
  | entry :: entries =>
    if entry.1 = name then (name, node) :: entries else entry :: putEntry name node entries

def put (tree : FileTree) (name : Text) (node : FileTree) : FileTree :=
  match tree with
  | .file content => .file content
  | .directory entries => .directory (putEntry name node entries)

/-! ## Following paths -/

/-- Where a path has led. -/
inductive Place
  /-- A directory above the root. -/
  | above (root : FileTree)
  /-- What is there, and the way from the root: the names taken, each with the directory it was
  taken in, last first. -/
  | inside (node : FileTree) (way : List (FileTree × Text))

namespace Place

/-- The tree from its root, with what is at the place put where the way leads. -/
def root : Place → FileTree
  | .above root => root
  | .inside node way => way.foldl (fun node (parent, name) => parent.put name node) node

/-- Follows one piece of a path. -/
def step (place : Place) (piece : Text) : Except FileError Place :=
  match place with
  | .above _ =>
    if piece = [] || piece = ['.'] || piece = ['.', '.'] then .ok place else .error .notFound
  | .inside (.file _) _ => .error .notDirectory
  | .inside (.directory entries) way =>
    if piece = [] || piece = ['.'] then .ok place
    else if piece = ['.', '.'] then
      match way with
      | [] => .ok (.above (.directory entries))
      | (parent, name) :: way => .ok (.inside (parent.put name (.directory entries)) way)
    else
      match entries.lookup piece with
      | some node => .ok (.inside node ((.directory entries, piece) :: way))
      | none => .error .notFound

/-- Makes the directories on the way along the pieces of a path. -/
def make (place : Place) : List Text → Except FileError Place
  | [] => .ok place
  | piece :: rest =>
    match place.step piece with
    | .ok (.inside (.file _) _) => .error (if rest = [] then .alreadyExists else .notDirectory)
    | .ok next => next.make rest
    | .error e =>
      match place with
      | .inside (.directory entries) way =>
        make (.inside empty ((.directory entries, piece) :: way)) rest
      | .inside (.file _) _ => .error e
      | .above _ => .error .permissionDenied

end Place

/-- Where a path starts: at the root, or above everything for an absolute one. -/
def origin (tree : FileTree) (path : Text) : Place :=
  if Text.startsWith '/' path then .above tree else .inside tree []

def follow (tree : FileTree) (path : Text) : Except FileError Place :=
  if path = [] then .error .notFound
  else (Path.pieces path).foldlM Place.step (tree.origin path)

/-! ## Operations -/

def read (tree : FileTree) (path : Text) : Except FileError ByteArray := do
  match ← tree.follow path with
  | .inside (.file content) _ => return content
  | _ => throw .isDirectory

def makeDirectories (tree : FileTree) (path : Text) : Except FileError FileTree :=
  if path = [] then .ok tree else Place.root <$> (tree.origin path).make (Path.pieces path)

/-- Writes a file in a directory that is there. A slash at the end names a directory. -/
def write (tree : FileTree) (path : Text) (content : ByteArray) : Except FileError FileTree := do
  if path = [] then throw .notFound
  let pieces := Path.pieces (Text.dropEndWhile (· = '/') path)
  let name := pieces.getLast?.getD []
  let place ← pieces.dropLast.foldlM Place.step (tree.origin path)
  if let .inside (.file _) _ := place then throw .notDirectory
  if Text.endsWith '/' path || name = ['.'] || name = ['.', '.'] then throw .isDirectory
  match place with
  | .inside (.directory entries) way =>
    if let some (.directory _) := entries.lookup name then throw .isDirectory
    else return (Place.inside (.file content) ((.directory entries, name) :: way)).root
  | _ => throw .permissionDenied

/-- A tree with the given files and the directories on the way to them. -/
def ofFiles (files : List (Text × ByteArray)) : Except FileError FileTree :=
  files.foldlM (fun tree (path, content) => do
    let tree ← tree.makeDirectories ((Path.parent? path).getD [])
    tree.write path content) empty

/-! ## As a world -/

/-- Runs an operation that changes the tree. -/
def update (f : FileTree → Except FileError FileTree) :
    StateM (FileTree × ByteArray) (Except FileError Unit) := fun (tree, input) =>
  match f tree with
  | .ok tree => (.ok (), tree, input)
  | .error e => (.error e, tree, input)

/-- The operations on a tree of files and the rest of the standard input. -/
def world : World (StateM (FileTree × ByteArray)) where
  exists? path := return ((← get).1.follow path).toBool
  isDirectory path := do
    match (← get).1.follow path with
    | .ok (.inside (.file _) _) => return false
    | .ok _ => return true
    | .error _ => return false
  entries path := do
    match (← get).1.follow path with
    | .ok (.inside (.directory entries) _) => return entries.map (·.1)
    | _ => return []
  readFile path := return (← get).1.read path
  readInput := modifyGet fun (tree, input) => (input, tree, .empty)
  makeDirectories path := update fun tree => tree.makeDirectories path
  writeFile path content := update fun tree => tree.write path content.toBytes

end FileTree

end InterfaceForms
