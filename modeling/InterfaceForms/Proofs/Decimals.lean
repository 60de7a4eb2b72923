import InterfaceForms.Number.Decimal
import Mathlib.Tactic.Ring

/-!
# The range of numerals

A numeral is read as the binary number nearest to its value. Far beyond the range of these numbers
the power of ten is not worked out, but infinity or zero is given at once. These are what rounding
gives there, so a numeral of any exponent is rounded like all others.

* `Binary64.ofQuotient_of_large`, `Binary64.ofQuotient_of_small`: rounding beyond the range.
* `Decimal.toBinary64_finite`: a numeral is rounded.
-/

namespace InterfaceForms

namespace Binary64

variable {n d k : ℕ}

/-- Three binary digits for each decimal one. -/
theorem log2_add_le_log2 (hd : d ≠ 0) (h : d * 10 ^ k ≤ n) : d.log2 + 3 * k ≤ n.log2 := by
  have hpos : 0 < d * 10 ^ k := Nat.mul_pos (Nat.pos_of_ne_zero hd) (Nat.pow_pos (by decide))
  have hn : n ≠ 0 := by omega
  refine (Nat.le_log2 hn).2 ?_
  calc 2 ^ (d.log2 + 3 * k) = 2 ^ d.log2 * 8 ^ k := by rw [Nat.pow_add, Nat.pow_mul]
    _ ≤ d * 10 ^ k := Nat.mul_le_mul (Nat.log2_self_le hd) (Nat.pow_le_pow_left (by decide) k)
    _ ≤ n := h

theorem log2Quotient_bounds (n d : ℕ) :
    (n.log2 : ℤ) - d.log2 - 1 ≤ log2Quotient n d ∧ log2Quotient n d ≤ (n.log2 : ℤ) - d.log2 := by
  simp only [log2Quotient]
  split
  · omega
  · omega

/-- Above the range a quotient is rounded to infinity. -/
theorem ofQuotient_of_large (negative : Bool) (hd : d ≠ 0) (hk : 400 ≤ k) (h : d * 10 ^ k ≤ n) :
    ofQuotient negative n d = infinity negative := by
  have hlog := log2_add_le_log2 hd h
  have hn : n ≠ 0 := by
    rintro rfl
    rw [Nat.log2_zero] at hlog
    omega
  obtain ⟨hquotient, -⟩ := log2Quotient_bounds n d
  have hexponent : 2047 ≤ (max (log2Quotient n d - 52) (-1074) + 1074).toNat := by omega
  have hbits : infinityBits ≤
      (max (log2Quotient n d - 52) (-1074) + 1074).toNat * Nat.pow 2 52 :=
    Nat.mul_le_mul_right _ hexponent
  rw [ofQuotient, if_neg hn, infinity, magnitudeBitsOfQuotient]
  exact congrArg _ (Nat.min_eq_right (Nat.le_add_right_of_le hbits))

theorem divNearestEven_of_small (h : 2 * n < d) : divNearestEven n d = 0 := by
  have hquotient : n / d = 0 := Nat.div_eq_of_lt (by omega)
  have hremainder : n % d = n := Nat.mod_eq_of_lt (by omega)
  simp [divNearestEven, hquotient, hremainder, h]

theorem two_mul_mul_pow_lt (hd : d ≠ 0) (h : n.log2 + k + 2 ≤ d.log2) :
    2 * (n * Nat.pow 2 k) < d :=
  calc 2 * (n * 2 ^ k) = n * 2 ^ (k + 1) := by ring
    _ < 2 ^ (n.log2 + 1) * 2 ^ (k + 1) :=
      Nat.mul_lt_mul_of_pos_right Nat.lt_log2_self (Nat.pow_pos (by decide))
    _ = 2 ^ (n.log2 + k + 2) := by ring
    _ ≤ 2 ^ d.log2 := Nat.pow_le_pow_right (by decide) h
    _ ≤ d := Nat.log2_self_le hd

/-- Below the range a quotient is rounded to zero. -/
theorem ofQuotient_of_small (negative : Bool) (hd : d ≠ 0) (hk : 400 ≤ k) (h : n * 10 ^ k ≤ d) :
    ofQuotient negative n d = zero negative := by
  by_cases hn : n = 0
  · rw [ofQuotient, if_pos hn]
  have hlog := log2_add_le_log2 hn h
  obtain ⟨-, hquotient⟩ := log2Quotient_bounds n d
  -- The least exponent is taken, and the quotient is less than half of its unit.
  have hexponent : max (log2Quotient n d - 52) (-1074) = -1074 := by omega
  have hunit : d * Nat.pow 2 (-1074 : ℤ).toNat = d := Nat.mul_one d
  have hmantissa : divNearestEven (n * Nat.pow 2 (-(-1074) : ℤ).toNat) d = 0 :=
    divNearestEven_of_small (two_mul_mul_pow_lt hd (by omega))
  have hbits : magnitudeBitsOfQuotient n d = 0 := by
    simp only [magnitudeBitsOfQuotient, hexponent, hunit, hmantissa]
    exact Nat.min_eq_left (Nat.zero_le infinityBits)
  rw [ofQuotient, if_neg hn, hbits, zero]

end Binary64

namespace Decimal

/-- A numeral of any exponent is rounded. -/
theorem toBinary64_finite (negative : Bool) (digits : ℕ) (exponent : ℤ) :
    toBinary64 negative (.finite digits exponent) =
      .ofQuotient negative (digits * Nat.pow 10 exponent.toNat) (Nat.pow 10 (-exponent).toNat) := by
  rw [toBinary64]
  split_ifs with hzero hlarge hsmall
  · rw [hzero, Nat.zero_mul, Binary64.ofQuotient, if_pos rfl]
  · have hscale : (-exponent).toNat = 0 := Int.toNat_of_nonpos (by omega)
    have hlarge : 1 * 10 ^ exponent.toNat ≤ digits * 10 ^ exponent.toNat :=
      Nat.mul_le_mul_right _ (Nat.pos_of_ne_zero hzero)
    rw [hscale]
    exact (Binary64.ofQuotient_of_large negative one_ne_zero (by omega) hlarge).symm
  · have hscale : exponent.toNat = 0 := Int.toNat_of_nonpos (by omega)
    have hsmall : digits * 1 * 10 ^ ((-exponent).toNat - digitsBound digits) ≤
        10 ^ (-exponent).toNat :=
      calc digits * 1 * 10 ^ ((-exponent).toNat - digitsBound digits)
          ≤ 10 ^ digitsBound digits * 10 ^ ((-exponent).toNat - digitsBound digits) := by
            rw [Nat.mul_one]
            exact Nat.mul_le_mul_right _ (lt_pow_digitsBound digits).le
        _ = 10 ^ (-exponent).toNat := by rw [← Nat.pow_add, Nat.add_sub_cancel' (by omega)]
    rw [hscale]
    exact (Binary64.ofQuotient_of_small negative (pow_ne_zero _ (by decide)) (by omega)
      hsmall).symm
  · rfl

end Decimal

end InterfaceForms
