import InterfaceForms.Number.Binary64
import InterfaceForms.Text.Basic

/-!
# Decimal expansions

Every finite binary number has a finite decimal expansion, since a power of two in the denominator
becomes a power of ten. The expansion says exactly which number is meant.
-/

namespace InterfaceForms

/-- An integer in decimal. -/
def Text.ofInt (n : Int) : Text :=
  if n < 0 then '-' :: Text.ofNat n.natAbs else Text.ofNat n.natAbs

/-- The digits of `n / 10 ^ places`, of which `places`, at least one, stand after the point. -/
def Text.ofScaled (n places : Nat) : Text :=
  let fraction := Text.ofNat (n % Nat.pow 10 places)
  Text.ofNat (n / Nat.pow 10 places) ++ '.' ::
    (List.replicate (places - fraction.length) '0' ++ fraction)

/-- The decimal expansion of a finite number, with at least one place after the point. -/
def Binary64.expansion (x : Binary64) : Text :=
  let digits :=
    if 0 ≤ x.exponent then Text.ofScaled (x.mantissa * Nat.pow 2 x.exponent.toNat * 10) 1
    else
      let places := (-x.exponent).toNat
      Text.ofScaled (x.mantissa * Nat.pow 5 places) places
  if x.negative then '-' :: digits else digits

end InterfaceForms
