import InterfaceForms.Text.Basic

/-!
# Entries of an object

The entries of an object are pairs of a key and a value in the order of their insertion. A key
keeps its position when its value is replaced or the key is renamed.

* `Entries.keys_insert`: a new key comes last, and a known one changes no key.
-/

namespace InterfaceForms

abbrev Entries (α : Type) := List (Text × α)

namespace Entries

variable {α : Type}

def keys (entries : Entries α) : List Text := entries.map (·.1)

def get? (key : Text) (entries : Entries α) : Option α :=
  (entries.find? fun entry => entry.1 = key).map (·.2)

def contains (key : Text) (entries : Entries α) : Bool := entries.any fun entry => entry.1 = key

/-- Replaces the value of a key, or adds the key at the end. -/
def insert (key : Text) (value : α) : Entries α → Entries α
  | [] => [(key, value)]
  | entry :: rest =>
    if entry.1 = key then (key, value) :: rest else entry :: insert key value rest

/-- Adds pairs one after another. -/
def insertAll (entries : Entries α) (pairs : List (Text × α)) : Entries α :=
  pairs.foldl (fun entries pair => insert pair.1 pair.2 entries) entries

def ofList (pairs : List (Text × α)) : Entries α := insertAll [] pairs

/-- Removes the first entry with the key; keys of an object are distinct. -/
def erase (key : Text) (entries : Entries α) : Entries α :=
  entries.eraseP fun entry => entry.1 = key

def rename (old new : Text) (entries : Entries α) : Entries α :=
  entries.map fun entry => if entry.1 = old then (new, entry.2) else entry

theorem contains_iff {key : Text} {entries : Entries α} :
    contains key entries = true ↔ key ∈ keys entries := by
  simp [contains, keys]

theorem keys_insert (key : Text) (value : α) (entries : Entries α) :
    keys (insert key value entries) =
      if key ∈ keys entries then keys entries else keys entries ++ [key] := by
  induction entries with
  | nil => simp [insert, keys]
  | cons entry rest ih =>
    unfold insert
    by_cases h : entry.1 = key
    · simp [keys, h]
    · have h' : key ≠ entry.1 := fun e => h e.symm
      simp only [h, if_false, keys, List.map_cons, List.mem_cons, h', false_or] at ih ⊢
      rw [ih]
      by_cases hk : key ∈ rest.map (·.1) <;> simp [hk]

theorem get?_eq_some_mem {key : Text} {value : α} {entries : Entries α}
    (h : get? key entries = some value) : (key, value) ∈ entries := by
  obtain ⟨entry, hfind, rfl⟩ := Option.map_eq_some_iff.1 h
  have hkey : entry.1 = key := by simpa using List.find?_some hfind
  exact hkey ▸ List.mem_of_find?_eq_some hfind

end Entries

end InterfaceForms
