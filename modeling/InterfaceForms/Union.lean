import InterfaceForms.Default
import InterfaceForms.Number.Decimal

/-!
# Unions

Which branch of a union a value belongs to is seen from its outermost form alone. A switch to
another branch carries numbers and booleans over and starts afresh for everything else.

* `Schema.activeBranch?`: the first branch that accepts a value.
* `Value.switchTo`: the value after a switch to a branch.
-/

namespace InterfaceForms

/-- The outermost form of the value is that of the kind. -/
def Kind.accepts : Kind → Value → Bool
  | .object _, .object _ => true
  | .record _, .object _ => true
  | .number, .number _ => true
  | .boolean, .bool _ => true
  | .string, .string _ => true
  | .enum values, .string s => values.contains s
  | .array _, .array _ => true
  | _, _ => false

def Schema.activeBranch? (branches : List Schema) (v : Value) : Option Nat :=
  branches.findIdx? fun branch => branch.kind.accepts v

namespace Number

/-- The number with the value of `x`: an integer where `x` is one and below the number nearest to
the greatest integer of 64 bits, zero where `x` is not finite. -/
def ofBinary64 (x : Binary64) : Number :=
  if x.isFinite && x.isWhole && x.absLt (.ofNat (Binary64.int64Limit - 1)) then .int x.toInt64
  else if x.isFinite then .float x
  else .int 0

def isZero : Number → Bool
  | .int n => n = 0
  | .float x => x.isZero

def isNaN : Number → Bool
  | .int _ => false
  | .float x => x.isNaN

end Number

namespace Value

/-- The number that a value is, counts as or writes; zero where there is none. -/
def toNumber : Value → Number
  | .number n => n
  | .bool b => .int (if b then 1 else 0)
  | .string s =>
    match Binary64.ofText? (Text.trim s) with
    | some x => .ofBinary64 x
    | none => .int 0
  | _ => .int 0

/-- Null, false, zero and the empty string are not true. -/
def truthy : Value → Bool
  | .null => false
  | .bool b => b
  | .number n => !n.isZero && !n.isNaN
  | .string s => s ≠ []
  | .array _ => true
  | .object _ => true

def switchTo (branch : Schema) (v : Value) : Value :=
  match branch.kind with
  | .number => .number v.toNumber
  | .boolean => .bool v.truthy
  | _ => branch.branchDefault

end Value

end InterfaceForms
