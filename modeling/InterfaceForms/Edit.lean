import InterfaceForms.Default
import InterfaceForms.Error

/-!
# Edits

The changes that a form makes to a value whose schema it knows. An edit answers with its result
and the new value, or with the cause why it does not apply; then the value stays as it was. The
order of keys is kept everywhere.

* `Edit.push`, `Edit.remove`: items of an array.
* `Edit.addEntry`, `Edit.rename`, `Edit.removeEntry`: entries of a record.
* `Edit.setOptional`: an optional field of an object.
-/

namespace InterfaceForms

namespace Edit

def items (v : Value) : Except EditError (List Value) :=
  match v with
  | .array items => .ok items
  | v => .error (.shapeMismatch "array" v.typeName)

def entries (v : Value) : Except EditError (Entries Value) :=
  match v with
  | .object entries => .ok entries
  | v => .error (.shapeMismatch "object" v.typeName)

/-! ## Arrays -/

/-- Adds a default item at the end and gives its index. -/
def push (item : Schema) (v : Value) : Except EditError (Nat × Value) := do
  let items ← items v
  return (items.length, .array (items ++ [item.default]))

def remove (index : Nat) (v : Value) : Except EditError (Value × Value) := do
  let items ← items v
  match items[index]? with
  | some item => return (item, .array (items.eraseIdx index))
  | none => throw (.indexOutOfBounds index items.length)

/-! ## Records -/

/-- The key that a new entry gets under the number `n`. -/
def numberedKey (n : Nat) : Text := "key_".toList ++ Text.ofNat n

/-- The least number, above that of the entries, whose key is free. Of the numbers tried, one more
than there are entries, one is free. -/
def freshNumber (entries : Entries Value) : Nat :=
  let n := entries.length
  ((List.range' (n + 1) (n + 1)).find? fun m => !Entries.contains (numberedKey m) entries).getD
    (2 * n + 1)

/-- Adds a default value under a fresh key and gives the key. -/
def addEntry (item : Schema) (v : Value) : Except EditError (Text × Value) := do
  let entries ← entries v
  let key := numberedKey (freshNumber entries)
  return (key, .object (entries ++ [(key, item.default)]))

/-- Renames a key in place. -/
def rename (old new : Text) (v : Value) : Except EditError (Unit × Value) := do
  let entries ← entries v
  if !Entries.contains old entries then throw (.missingKey old)
  if old ≠ new && Entries.contains new entries then throw (.keyExists new)
  return ((), .object (Entries.rename old new entries))

def removeEntry (key : Text) (v : Value) : Except EditError (Value × Value) := do
  let entries ← entries v
  match Entries.get? key entries with
  | some value => return (value, .object (Entries.erase key entries))
  | none => throw (.missingKey key)

/-! ## Objects -/

/-- The entries with a new field, in the order of the fields; the entries that belong to no field
stay at the end. -/
def insertField (fields : List Schema) (field : Text) (value : Value)
    (entries : Entries Value) : Entries Value :=
  let known := fields.filterMap fun f =>
    if f.name = field then some (f.name, value)
    else (Entries.get? f.name entries).map fun v => (f.name, v)
  let unknown := entries.filter fun entry => !fields.any fun f => f.name = entry.1
  Entries.ofList known ++ unknown

/-- Makes an optional field present, with its default, or absent. -/
def setOptional (schema : Schema) (field : Text) (present : Bool) (v : Value) :
    Except EditError (Unit × Value) := do
  let some fields := schema.fields? | throw (.shapeMismatch "object" schema.kind.tag)
  let some target := fields.find? (·.name = field) | throw (.unknownField field)
  let entries ← entries v
  if !present then return ((), .object (Entries.erase field entries))
  if Entries.contains field entries then return ((), v)
  return ((), .object (insertField fields field target.default entries))

end Edit

end InterfaceForms
