import InterfaceForms.Entries

/-!
# Settings documents

A TOML document is a table of values. Its tables are written in three ways, by headers, by dotted
keys and inline, and what one way has defined another may not extend.

* `TomlTable.define`: the table with one more key.
* `TomlTable.openTable`, `TomlTable.openItem`: the table after a header `[...]` or `[[...]]`.
-/

namespace InterfaceForms

/-- How a table came to be, which decides how it may grow. -/
inductive TableOrigin
  /-- By a header of its own. -/
  | header
  /-- On the way to a table with a header. -/
  | implicit
  /-- On the way of a dotted key. -/
  | dotted
  deriving DecidableEq, Repr

inductive Toml
  | string (value : Text)
  /-- A number, a truth value or a point in time. -/
  | scalar
  | array (items : List Toml)
  | inline (entries : List (Text × Toml))
  | table (origin : TableOrigin) (entries : List (Text × Toml))
  /-- The tables under headers `[[...]]`, last first. -/
  | tables (items : List (List (Text × Toml)))

abbrev TomlTable := Entries Toml

namespace TomlTable

/-- Defines a dotted key. The tables on its way must have no header of their own, and the one
that holds the last key must come from dotted keys. -/
def define (value : Toml) : List Text → TomlTable → Option TomlTable
  | [], _ => none
  | [key], table => if Entries.contains key table then none else some (table ++ [(key, value)])
  | key :: path, table =>
    match Entries.get? key table with
    | none => do return table ++ [(key, .table .dotted (← define value path []))]
    | some (.table .dotted entries) => do
      return Entries.insert key (.table .dotted (← define value path entries)) table
    | some (.table .implicit entries) =>
      if path.length = 1 then none
      else do return Entries.insert key (.table .implicit (← define value path entries)) table
    | some (.tables (last :: before)) =>
      if path.length = 1 then none
      else do return Entries.insert key (.tables ((← define value path last) :: before)) table
    | _ => none

/-- Changes the table at the end of a path of headers by `f`. Tables that are missing on the way
are made, and of several tables under one name the last is meant. -/
def within (f : TomlTable → Option TomlTable) : List Text → TomlTable → Option TomlTable
  | [], table => f table
  | key :: path, table =>
    match Entries.get? key table with
    | none => do return table ++ [(key, .table .implicit (← within f path []))]
    | some (.table origin entries) => do
      return Entries.insert key (.table origin (← within f path entries)) table
    | some (.tables (last :: before)) => do
      return Entries.insert key (.tables ((← within f path last) :: before)) table
    | _ => none

/-- Opens the table of a header `[...]`, which may have been made on the way to another. -/
def openTable (path : List Text) (key : Text) : TomlTable → Option TomlTable :=
  within (fun table =>
    match Entries.get? key table with
    | none => some (table ++ [(key, .table .header [])])
    | some (.table .implicit entries) => some (Entries.insert key (.table .header entries) table)
    | _ => none) path

/-- Opens one more table under a header `[[...]]`. -/
def openItem (path : List Text) (key : Text) : TomlTable → Option TomlTable :=
  within (fun table =>
    match Entries.get? key table with
    | none => some (table ++ [(key, .tables [[]])])
    | some (.tables items) => some (Entries.insert key (.tables ([] :: items)) table)
    | _ => none) path

end TomlTable

namespace Toml

/-- A table or an array without entries. -/
def isEmpty : Toml → Bool
  | .inline [] => true
  | .table _ [] => true
  | .array [] => true
  | .tables [] => true
  | _ => false

/-- The choice that a value names: a string, or the one key of a table that holds nothing more. -/
def choice? : Toml → Option Text
  | .string name => some name
  | .inline [(name, v)] => if v.isEmpty then some name else none
  | .table _ [(name, v)] => if v.isEmpty then some name else none
  | _ => none

end Toml

end InterfaceForms
