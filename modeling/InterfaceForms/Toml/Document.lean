import InterfaceForms.Toml
import InterfaceForms.Toml.Quoted

/-!
# Reading settings documents

A document is read line by line: a line is blank, a header or a key with its value, and a comment
may end it. Each reader takes a text and gives what it has read with the rest of the text, or
nothing if the text is malformed. Arrays and inline tables are nested at most `maxDepth` deep, and
a key has at most as many parts. The readers of values and lines take a bound on their steps
besides, for which the length of the text is enough.

* `Toml.ofText?`: the table that a document writes.
-/

namespace InterfaceForms.Toml

/-- How deep values are nested in a document, and how many parts its keys have, at most. -/
def maxDepth : Nat := 79

/-! ## Between the values -/

def dropBlanks (t : Text) : Text := t.dropWhile fun c => c = ' ' || c = '\t'

/-- Drops blanks, line ends and comments. -/
def dropGaps? (comment : Bool) : Text → Option Text
  | [] => some []
  | c :: t =>
    if c = '\n' then dropGaps? false t
    else if c = '\r' && t.head? = some '\n' then dropGaps? comment t
    else if comment then (if isPlainChar c then dropGaps? true t else none)
    else if c = ' ' || c = '\t' then dropGaps? false t
    else if c = '#' then dropGaps? true t
    else some (c :: t)

/-- Drops the end of a line: blanks, a comment and the line end. -/
def endLine? (t : Text) : Option Text :=
  match dropBlanks t with
  | '#' :: t => lineEnd? (t.dropWhile isPlainChar)
  | t => lineEnd? t
where
  lineEnd? : Text → Option Text
    | [] => some []
    | '\n' :: t => some t
    | '\r' :: '\n' :: t => some t
    | _ => none

/-- Drops one character, which must be `c`. -/
def drop? (c : Char) : Text → Option Text
  | [] => none
  | d :: t => if d = c then some t else none

/-! ## Keys -/

def isBareKeyChar (c : Char) : Bool := c.isAlphanum || c = '_' || c = '-'

def cutKey? : Text → Option (Text × Text)
  | [] => none
  | c :: t =>
    if c = '"' then basicLine t
    else if c = '\x27' then literalLine t
    else if isBareKeyChar c then
      some (c :: t.takeWhile isBareKeyChar, t.dropWhile isBareKeyChar)
    else none

/-- At most so many keys, with points between them. -/
def cutKeys? : Nat → Text → Option (List Text × Text)
  | 0, _ => none
  | bound + 1, t => do
    let (key, t) ← cutKey? (dropBlanks t)
    match dropBlanks t with
    | '.' :: t => do
      let (keys, t) ← cutKeys? bound t
      return (key :: keys, t)
    | t => return ([key], t)

/-! ## Values -/

mutual
/-- A value whose arrays and inline tables are nested at most `depth` deep. -/
def cutValue? : Nat → Nat → Text → Option (Toml × Text)
  | 0, _, _ => none
  | bound + 1, depth, t =>
    match t, depth with
    | '[' :: _, 0 => none
    | '[' :: t, depth + 1 => do
      let (items, t) ← cutItems? bound depth t
      return (.array items, t)
    | '\x7b' :: _, 0 => none
    | '\x7b' :: t, depth + 1 =>
      match dropBlanks t with
      | '\x7d' :: t => some (.inline [], t)
      | t => do
        let (entries, t) ← cutEntries? bound depth [] t
        return (.inline entries, t)
    | t, _ =>
      if t.head?.any fun c => c = '"' || c = '\x27' then do
        let (s, t) ← cutString? t
        return (.string s, t)
      else
        let (word, t) := cutScalar t
        if isScalar word then some (.scalar, t) else none
/-- The rest of an array, after its opening bracket or a comma. -/
def cutItems? : Nat → Nat → Text → Option (List Toml × Text)
  | 0, _, _ => none
  | bound + 1, depth, t => do
    match ← dropGaps? false t with
    | ']' :: t => return ([], t)
    | t =>
      let (item, t) ← cutValue? bound depth t
      match ← dropGaps? false t with
      | ']' :: t => return ([item], t)
      | ',' :: t =>
        let (items, t) ← cutItems? bound depth t
        return (item :: items, t)
      | _ => none
/-- The rest of an inline table, from a key on, with the entries before it. -/
def cutEntries? : Nat → Nat → TomlTable → Text → Option (TomlTable × Text)
  | 0, _, _, _ => none
  | bound + 1, depth, entries, t => do
    let (keys, t) ← cutKeys? maxDepth t
    let t ← drop? '=' t
    let (value, t) ← cutValue? bound depth (dropBlanks t)
    let entries ← TomlTable.define value keys entries
    match dropBlanks t with
    | '\x7d' :: t => return (entries, t)
    | ',' :: t => cutEntries? bound depth entries t
    | _ => none
end

/-! ## Documents -/

/-- Reads the lines of a document. `path` is the path of the last header, and `document` the table
so far. -/
def readLines : Nat → List Text → TomlTable → Text → Option TomlTable
  | 0, _, _, _ => none
  | bound + 1, path, document, t =>
    match dropBlanks t with
    | [] => some document
    | '[' :: '[' :: t => do
      let (keys, t) ← cutKeys? maxDepth t
      let t ← endLine? (← drop? ']' (← drop? ']' t))
      let document ← TomlTable.openItem keys.dropLast (keys.getLast?.getD []) document
      readLines bound keys document t
    | '[' :: t => do
      let (keys, t) ← cutKeys? maxDepth t
      let t ← endLine? (← drop? ']' t)
      let document ← TomlTable.openTable keys.dropLast (keys.getLast?.getD []) document
      readLines bound keys document t
    | c :: t =>
      if c = '#' || c = '\n' || c = '\r' then do
        readLines bound path document (← endLine? (c :: t))
      else do
        let (keys, t) ← cutKeys? maxDepth (c :: t)
        let t ← drop? '=' t
        let (value, t) ← cutValue? bound maxDepth (dropBlanks t)
        let t ← endLine? t
        readLines bound path (← TomlTable.within (TomlTable.define value keys) path document) t

/-- The table that a document writes. A byte order mark may stand in front. -/
def ofText? (t : Text) : Option TomlTable :=
  let t := if t.head? = some '\uFEFF' then t.tail else t
  readLines (t.length + 2) [] [] t

end InterfaceForms.Toml
