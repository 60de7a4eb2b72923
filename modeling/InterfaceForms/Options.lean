/-!
# Policies

What to do with a name that nothing declares, with an array of numbers or booleans, and with a
second declaration of a name.
-/

namespace InterfaceForms

/-- A type name that is neither primitive nor declared is read as a string (as an empty object
where a record value is asked for), or refused. -/
inductive UnknownTypePolicy
  | asString
  | reject
  deriving DecidableEq, Repr

/-- The items of an array of numbers or booleans become strings, or keep their type. -/
inductive ArrayPrimitivePolicy
  | asString
  | preserve
  deriving DecidableEq, Repr

inductive DuplicatePolicy
  | lastWins
  | reject
  deriving DecidableEq, Repr

structure Options where
  unknownTypes : UnknownTypePolicy := .asString
  arrayPrimitives : ArrayPrimitivePolicy := .asString
  duplicates : DuplicatePolicy := .lastWins
  deriving DecidableEq, Repr

/-- Nothing is tolerated. -/
def Options.strict : Options := ⟨.reject, .preserve, .reject⟩

/-! ## Spellings -/

def UnknownTypePolicy.ofName? : String → Option UnknownTypePolicy
  | "as-string" => some .asString
  | "reject" => some .reject
  | _ => none

def ArrayPrimitivePolicy.ofName? : String → Option ArrayPrimitivePolicy
  | "as-string" => some .asString
  | "preserve" => some .preserve
  | _ => none

def DuplicatePolicy.ofName? : String → Option DuplicatePolicy
  | "last-wins" => some .lastWins
  | "reject" => some .reject
  | _ => none

end InterfaceForms
