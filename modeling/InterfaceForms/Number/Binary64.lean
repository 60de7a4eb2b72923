/-!
# Binary floating point numbers of 64 bits

A finite number is a sign, a mantissa and a power of two, and so an exact dyadic rational. The
rounding of a quotient of naturals goes to the nearest number, and a tie to the even mantissa.

* `Binary64.toInt64`: a number cut to an integer of 64 bits.
* `Binary64.ofQuotient`: the number nearest to a quotient.
-/

namespace InterfaceForms

structure Binary64 where
  bits : UInt64
  deriving DecidableEq, Repr

namespace Binary64

def negative (x : Binary64) : Bool := Nat.pow 2 63 ≤ x.bits.toNat

/-- The eleven bits of the biased exponent. -/
def exponentField (x : Binary64) : Nat := x.bits.toNat / Nat.pow 2 52 % Nat.pow 2 11

/-- The fifty-two bits of the fraction. -/
def fractionField (x : Binary64) : Nat := x.bits.toNat % Nat.pow 2 52

def isFinite (x : Binary64) : Bool := x.exponentField ≠ 2047

def isNaN (x : Binary64) : Bool := x.exponentField = 2047 && x.fractionField ≠ 0

/-- The magnitude of a finite number is `mantissa * 2 ^ exponent`. -/
def mantissa (x : Binary64) : Nat :=
  if x.exponentField = 0 then x.fractionField else Nat.pow 2 52 + x.fractionField

def exponent (x : Binary64) : Int := (max x.exponentField 1 : Nat) - 1075

/-- Zero, of either sign. -/
def isZero (x : Binary64) : Bool := x.isFinite && x.mantissa = 0

/-! ## Integers -/

/-- The magnitude of a finite number is the quotient of the numerator and the denominator. -/
def numerator (x : Binary64) : Nat := x.mantissa * Nat.pow 2 x.exponent.toNat

def denominator (x : Binary64) : Nat := Nat.pow 2 (-x.exponent).toNat

/-- A finite number without a fraction. -/
def isWhole (x : Binary64) : Bool := x.numerator % x.denominator = 0

/-- The magnitude of a finite number without its fraction. -/
def wholePart (x : Binary64) : Nat := x.numerator / x.denominator

/-- Compares the magnitudes of finite numbers. -/
def absLt (x y : Binary64) : Bool := x.numerator * y.denominator < y.numerator * x.denominator

/-- The integers of 64 bits are less than this, and their negations are not greater. -/
def int64Limit : Nat := Nat.pow 2 63

/-- The number without its fraction, as an integer of 64 bits: where it is beyond these it is the
last of them, and what is not a number is zero. -/
def toInt64 (x : Binary64) : Int :=
  if x.isNaN then 0
  else if x.negative then
    if x.isFinite then max (-(int64Limit : Int)) (-(x.wholePart : Int)) else -(int64Limit : Int)
  else if x.isFinite then min (int64Limit - 1 : Int) x.wholePart
  else int64Limit - 1

/-! ## Rounding -/

/-- The quotient rounded to the nearest natural, a tie to the even one. -/
def divNearestEven (n d : Nat) : Nat :=
  let q := n / d
  let r := n % d
  if 2 * r < d || (2 * r = d && q % 2 = 0) then q else q + 1

/-- The bits of infinity. -/
def infinityBits : Nat := 2047 * Nat.pow 2 52

def ofParts (negative : Bool) (magnitudeBits : Nat) : Binary64 :=
  ⟨.ofNat (magnitudeBits + if negative then Nat.pow 2 63 else 0)⟩

def infinity (negative : Bool) : Binary64 := ofParts negative infinityBits

def zero (negative : Bool) : Binary64 := ofParts negative 0

/-- The exponent of the greatest power of two that is at most `n / d`, for positive `n` and
`d`. -/
def log2Quotient (n d : Nat) : Int :=
  let k : Int := (n.log2 : Int) - d.log2
  if d * Nat.pow 2 k.toNat ≤ n * Nat.pow 2 (-k).toNat then k else k - 1

/-- The bits of the number nearest to `n / d`, for positive `n` and `d`. The mantissa takes 53
bits, fewer below the least normal number; a mantissa that rounding carries to the next power of
two adds one to the exponent field, as it should. -/
def magnitudeBitsOfQuotient (n d : Nat) : Nat :=
  let e : Int := max (log2Quotient n d - 52) (-1074)
  let m := divNearestEven (n * Nat.pow 2 (-e).toNat) (d * Nat.pow 2 e.toNat)
  min ((e + 1074).toNat * Nat.pow 2 52 + m) infinityBits

def ofQuotient (negative : Bool) (n d : Nat) : Binary64 :=
  if n = 0 then zero negative else ofParts negative (magnitudeBitsOfQuotient n d)

/-- The number nearest to a natural. -/
def ofNat (n : Nat) : Binary64 := ofQuotient false n 1

end Binary64

end InterfaceForms
