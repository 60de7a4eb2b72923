import InterfaceForms.Options
import InterfaceForms.Toml.Document

/-!
# Settings

The settings of a command: the name of the root declaration and the policies. A settings document
may give some of them at its top level, and what else it holds is ignored.
-/

namespace InterfaceForms

structure Settings where
  root : Text := "Root".toList
  options : Options := {}

namespace Settings

/-- What is read from the value of a key, or `default` if the key is missing. -/
def read? {α : Type} (table : TomlTable) (key : String) (read : Toml → Option α) (default : α) :
    Option α :=
  match Entries.get? key.toList table with
  | none => some default
  | some v => read v

def text? : Toml → Option Text
  | .string t => some t
  | _ => none

/-- The policy that a value names. -/
def policy? {α : Type} (ofName? : String → Option α) (v : Toml) : Option α := do
  ofName? (← v.choice?).str

/-- The settings in a document, unless the document or one of them is malformed. -/
def ofText? (t : Text) : Option Settings := do
  let table ← Toml.ofText? t
  let unset : Settings := {}
  let root ← read? table "root" text? unset.root
  let unknownTypes ← read? table "unknown_types" (policy? UnknownTypePolicy.ofName?)
    unset.options.unknownTypes
  let arrayPrimitives ← read? table "array_primitives" (policy? ArrayPrimitivePolicy.ofName?)
    unset.options.arrayPrimitives
  let duplicates ← read? table "duplicates" (policy? DuplicatePolicy.ofName?)
    unset.options.duplicates
  return ⟨root, ⟨unknownTypes, arrayPrimitives, duplicates⟩⟩

end Settings

end InterfaceForms
