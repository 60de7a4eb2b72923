import InterfaceForms.Number.Binary64
import InterfaceForms.Text.Basic

/-!
# Numbers written in decimal

A decimal numeral is a sign, digits with at most one point among them, and an exponent of ten.
`infinity`, `inf` and `nan` are read too, in any case.
-/

namespace InterfaceForms

inductive Decimal
  /-- The magnitude is `digits * 10 ^ exponent`. -/
  | finite (digits : Nat) (exponent : Int)
  | infinity
  | nan
  deriving DecidableEq, Repr

namespace Decimal

/-- The number that digits write. -/
def digitsValue (digits : Text) : Nat :=
  digits.foldl (fun n c => 10 * n + (c.toNat - '0'.toNat)) 0

/-- A minus sign or not, and the text after a sign. -/
def cutSign : Text → Bool × Text
  | '-' :: t => (true, t)
  | '+' :: t => (false, t)
  | t => (false, t)

/-- The exponent after a mantissa: none at all, or `e` and an integer. -/
def exponent? : Text → Option Int
  | [] => some 0
  | c :: t =>
    let (negative, digits) := cutSign t
    if c.toLower = 'e' && digits ≠ [] && digits.all Char.isDigit then
      some (if negative then -(digitsValue digits : Int) else digitsValue digits)
    else none

def special? (t : Text) : Option Decimal :=
  let t := t.map Char.toLower
  if t = "inf".toList || t = "infinity".toList then some .infinity
  else if t = "nan".toList then some .nan
  else none

/-- The digits after a point, and the text after them. -/
def cutFraction : Text → Text × Text
  | '.' :: t => (t.takeWhile Char.isDigit, t.dropWhile Char.isDigit)
  | t => ([], t)

/-- A numeral without its sign. There is at least one digit, on either side of the point. -/
def unsigned? (t : Text) : Option Decimal :=
  let whole := t.takeWhile Char.isDigit
  let (fraction, rest) := cutFraction (t.dropWhile Char.isDigit)
  if whole ++ fraction = [] then special? t
  else
    (exponent? rest).map fun e => .finite (digitsValue (whole ++ fraction)) (e - fraction.length)

/-- At least the number of digits that write `n` in decimal. -/
def digitsBound (n : Nat) : Nat := n.log2 / 3 + 1

theorem lt_pow_digitsBound (n : Nat) : n < Nat.pow 10 (digitsBound n) :=
  calc n < Nat.pow 2 (n.log2 + 1) := Nat.lt_log2_self
    _ ≤ Nat.pow 2 (3 * digitsBound n) :=
      Nat.pow_le_pow_right (by decide) (by rw [digitsBound]; omega)
    _ = Nat.pow 8 (digitsBound n) := Nat.pow_mul 2 3 (digitsBound n)
    _ ≤ Nat.pow 10 (digitsBound n) := Nat.pow_le_pow_left (by decide) _

/-- The nearest binary number of the given sign. Beyond ten to the power of 400 or -400 it is
known without working out the power. -/
def toBinary64 (negative : Bool) : Decimal → Binary64
  | .infinity => .infinity negative
  | .nan => .ofParts negative (Binary64.infinityBits + Nat.pow 2 51)
  | .finite digits exponent =>
    if digits = 0 then .zero negative
    else if 400 < exponent then .infinity negative
    else if exponent + digitsBound digits < -400 then .zero negative
    else .ofQuotient negative (digits * Nat.pow 10 exponent.toNat)
        (Nat.pow 10 (-exponent).toNat)

end Decimal

/-- The number that a text writes in decimal. -/
def Binary64.ofText? (t : Text) : Option Binary64 :=
  let (negative, t) := Decimal.cutSign t
  (Decimal.unsigned? t).map (Decimal.toBinary64 negative)

end InterfaceForms
