import InterfaceForms.Entries
import InterfaceForms.Number.Binary64

/-!
# Values

A document is a value: null, a boolean, a number, a string, an array or an object. Integers and
floating point numbers are told apart, and an object keeps the order of its keys.
-/

namespace InterfaceForms

inductive Number
  | int (value : Int)
  | float (value : Binary64)
  deriving DecidableEq, Repr

inductive Value
  | null
  | bool (value : Bool)
  | number (value : Number)
  | string (value : Text)
  | array (items : List Value)
  | object (entries : List (Text × Value))
  deriving Repr

namespace Value

/-- What a value is called in a message. -/
def typeName : Value → String
  | .null => "null"
  | .bool _ => "boolean"
  | .number _ => "number"
  | .string _ => "string"
  | .array _ => "array"
  | .object _ => "object"

def int (n : Int) : Value := .number (.int n)

/-! ## Places inside a value -/

/-- A step from a value to one inside it: to the value of a key, or to an item. -/
inductive Key
  | name (key : Text)
  | index (i : Nat)
  deriving DecidableEq, Repr

/-- The value that one step leads to. -/
def child? (v : Value) : Key → Option Value
  | .name key => match v with
    | .object entries => Entries.get? key entries
    | _ => none
  | .index i => match v with
    | .array items => items[i]?
    | _ => none

/-- Puts a value at the place that one step leads to. -/
def setChild (v : Value) (step : Key) (new : Value) : Value :=
  match step, v with
  | .name key, .object entries => .object (Entries.insert key new entries)
  | .index i, .array items => .array (items.set i new)
  | _, v => v

/-- The value at the end of a path. -/
def at? : List Key → Value → Option Value
  | [], v => some v
  | step :: path, v => do (← v.child? step).at? path

/-- Puts a value at the end of a path; nothing changes if the path leads nowhere. -/
def setAt (new : Value) : List Key → Value → Value
  | [], _ => new
  | step :: path, v =>
    match v.child? step with
    | some inner => v.setChild step (setAt new path inner)
    | none => v

end Value

end InterfaceForms
