import InterfaceForms.Text.Basic

/-!
# Primitive types
-/

namespace InterfaceForms

inductive Primitive
  | string
  | number
  | boolean
  deriving DecidableEq, Repr

namespace Primitive

def name : Primitive → Text
  | .string => "string".toList
  | .number => "number".toList
  | .boolean => "boolean".toList

def ofName? (t : Text) : Option Primitive :=
  [string, number, boolean].find? fun p => p.name = t

theorem ofName?_name (p : Primitive) : ofName? p.name = some p := by
  cases p <;> rfl

theorem ofName?_eq_some {t : Text} {p : Primitive} : ofName? t = some p ↔ p.name = t := by
  constructor
  · intro h
    simpa using List.find?_some h
  · rintro rfl
    exact ofName?_name p

end Primitive

end InterfaceForms
