import InterfaceForms.Union
import Mathlib.Algebra.Order.Field.Rat
import Mathlib.Data.Nat.Cast.Field
import Mathlib.Tactic.FieldSimp
import Mathlib.Tactic.Linarith
import Mathlib.Tactic.NormNum
import Mathlib.Tactic.Positivity
import Mathlib.Tactic.Ring

/-!
# Numbers after a switch

A switch to numbers reads a numeral as a binary number, which is a fraction with a power of two
below, and keeps its value: an integer of less than 64 bits where the number is one, else the number
itself.

* `Binary64.toRat`: the value of a finite number.
* `Binary64.isWhole_iff`, `Binary64.absLt_iff`: what is tested before a number is cut to an integer.
* `Binary64.toInt64_eq`: below the limit the cut loses nothing and comes to no end of the integers.
* `Value.switchTo_number`: what a switch to numbers gives.
-/

namespace InterfaceForms

namespace Binary64

/-- The value of a finite number. -/
def toRat (x : Binary64) : ℚ := (if x.negative then -1 else 1) * x.mantissa * 2 ^ x.exponent

variable {x y : Binary64}

theorem denominator_pos (x : Binary64) : 0 < x.denominator := Nat.pow_pos (by decide)

theorem denominator_cast_pos (x : Binary64) : (0 : ℚ) < x.denominator :=
  Nat.cast_pos.2 x.denominator_pos

/-! ## The magnitude -/

theorem toRat_eq (x : Binary64) :
    x.toRat = (if x.negative then -1 else 1) * (x.numerator / x.denominator : ℚ) := by
  have hpow : (2 : ℚ) ^ x.exponent = 2 ^ x.exponent.toNat / 2 ^ (-x.exponent).toNat := by
    have hsplit : x.exponent = (x.exponent.toNat : ℤ) - (-x.exponent).toNat := by omega
    conv_lhs => rw [hsplit]
    rw [zpow_sub₀ (by norm_num), zpow_natCast, zpow_natCast]
  have hnumerator : (x.numerator : ℚ) = x.mantissa * 2 ^ x.exponent.toNat := by
    simp [numerator]
  have hdenominator : (x.denominator : ℚ) = 2 ^ (-x.exponent).toNat := by
    simp [denominator]
  rw [toRat, hpow, hnumerator, hdenominator]
  ring

theorem abs_toRat (x : Binary64) : |x.toRat| = x.numerator / x.denominator := by
  have hsign : |(if x.negative then -1 else 1 : ℚ)| = 1 := by
    split
    · rw [abs_neg, abs_one]
    · exact abs_one
  rw [toRat_eq, abs_mul, hsign, one_mul, abs_of_nonneg (by positivity)]

/-- Magnitudes are compared as fractions are. -/
theorem absLt_iff : x.absLt y = true ↔ |x.toRat| < |y.toRat| := by
  rw [abs_toRat, abs_toRat, div_lt_div_iff₀ x.denominator_cast_pos y.denominator_cast_pos, absLt,
    decide_eq_true_eq]
  norm_cast

/-! ## Integers -/

/-- A number without a fraction is its whole part, with its sign. -/
theorem toRat_of_isWhole (h : x.isWhole = true) :
    x.toRat = ((if x.negative then -x.wholePart else x.wholePart : ℤ) : ℚ) := by
  have hdvd : x.denominator ∣ x.numerator := Nat.dvd_of_mod_eq_zero (by simpa [isWhole] using h)
  have hquotient : (x.numerator / x.denominator : ℚ) = x.wholePart :=
    (Nat.cast_div hdvd x.denominator_cast_pos.ne').symm
  rw [toRat_eq, hquotient]
  split
  · push_cast
    ring
  · push_cast
    ring

/-- A number has no fraction just when its value is an integer. -/
theorem isWhole_iff : x.isWhole = true ↔ ∃ n : ℤ, x.toRat = n := by
  refine ⟨fun h => ⟨_, toRat_of_isWhole h⟩, ?_⟩
  rintro ⟨n, hn⟩
  have habs : (x.numerator : ℚ) = (n.natAbs * x.denominator : ℕ) := by
    have hquotient := x.abs_toRat
    rw [hn, eq_div_iff x.denominator_cast_pos.ne'] at hquotient
    rw [← hquotient]
    push_cast
    rw [Nat.cast_natAbs, Int.cast_abs]
  have hdvd : x.denominator ∣ x.numerator := ⟨n.natAbs, by
    rw [Nat.mul_comm]
    exact_mod_cast habs⟩
  simpa [isWhole] using Nat.mod_eq_zero_of_dvd hdvd

/-- The greatest integer of 64 bits is rounded up to the first that is beyond them. -/
theorem abs_toRat_limit : |(ofNat (int64Limit - 1)).toRat| = int64Limit := by
  have hnumerator : (ofNat (int64Limit - 1)).numerator = int64Limit := by decide +kernel
  have hdenominator : (ofNat (int64Limit - 1)).denominator = 1 := by decide +kernel
  rw [abs_toRat, hnumerator, hdenominator, Nat.cast_one, div_one]

/-- The limit on the values of integers. -/
theorem abs_toRat_lt_limit_iff {n : ℤ} (hn : x.toRat = n) :
    |x.toRat| < int64Limit ↔ |n| < 2 ^ 63 := by
  have hlimit : (int64Limit : ℚ) = ((2 ^ 63 : ℤ) : ℚ) := by
    rw [int64Limit]
    norm_num
  rw [hn, hlimit]
  exact_mod_cast Iff.rfl

/-- What is below the limit is cut to its own value. -/
theorem toInt64_eq (hfinite : x.isFinite = true) {n : ℤ} (hn : x.toRat = n)
    (hlimit : |x.toRat| < int64Limit) : x.toInt64 = n := by
  have hwhole := isWhole_iff.2 ⟨n, hn⟩
  have hvalue : (if x.negative then -x.wholePart else x.wholePart : ℤ) = n := by
    rw [toRat_of_isWhole hwhole] at hn
    exact_mod_cast hn
  have hbound : n.natAbs < int64Limit := by
    rw [hn] at hlimit
    have hcast : ((n.natAbs : ℕ) : ℚ) < int64Limit := by
      rwa [Nat.cast_natAbs, Int.cast_abs]
    exact_mod_cast hcast
  have hnan : x.isNaN = false := by
    simp only [isFinite, ne_eq, decide_eq_true_eq] at hfinite
    simp [isNaN, hfinite]
  rw [toInt64, hnan, hfinite, if_neg Bool.false_ne_true, if_pos rfl, if_pos rfl]
  cases hsign : x.negative with
  | true =>
    rw [hsign, if_pos rfl] at hvalue
    rw [if_pos rfl, hvalue]
    exact max_eq_right (by omega)
  | false =>
    rw [hsign, if_neg Bool.false_ne_true] at hvalue
    rw [if_neg Bool.false_ne_true, hvalue]
    exact min_eq_right (by omega)

end Binary64

/-! ## The number after a switch -/

namespace Number

/-- No infinity, and nothing that is not a number. -/
def isFinite : Number → Bool
  | .int _ => true
  | .float x => x.isFinite

variable {x : Binary64}

/-- An integer below the limit becomes that integer. -/
theorem ofBinary64_of_int (hfinite : x.isFinite = true) {n : ℤ} (hn : x.toRat = n)
    (hlimit : |x.toRat| < Binary64.int64Limit) : ofBinary64 x = .int n := by
  have hwhole : x.isWhole = true := Binary64.isWhole_iff.2 ⟨n, hn⟩
  have hbelow : x.absLt (.ofNat (Binary64.int64Limit - 1)) = true := by
    rwa [Binary64.absLt_iff, Binary64.abs_toRat_limit]
  rw [ofBinary64, hfinite, hwhole, hbelow, if_pos (by rfl),
    Binary64.toInt64_eq hfinite hn hlimit]

/-- Every other finite number stays as it is. -/
theorem ofBinary64_of_finite (hfinite : x.isFinite = true)
    (hother : ¬ ((∃ n : ℤ, x.toRat = n) ∧ |x.toRat| < Binary64.int64Limit)) :
    ofBinary64 x = .float x := by
  rw [← Binary64.isWhole_iff, ← Binary64.abs_toRat_limit, ← Binary64.absLt_iff] at hother
  rw [ofBinary64, hfinite, Bool.true_and, if_neg (by rwa [Bool.and_eq_true]), if_pos rfl]

theorem ofBinary64_of_not_finite (h : x.isFinite = false) : ofBinary64 x = .int 0 := by
  rw [ofBinary64, h, Bool.false_and, Bool.false_and, if_neg Bool.false_ne_true,
    if_neg Bool.false_ne_true]

theorem isFinite_ofBinary64 (x : Binary64) : (ofBinary64 x).isFinite = true := by
  rw [ofBinary64]
  split
  · rfl
  · split
    · assumption
    · rfl

end Number

namespace Value

theorem switchTo_of_number {branch : Schema} (h : branch.kind = .number) (v : Value) :
    v.switchTo branch = .number v.toNumber := by
  rw [switchTo, h]

theorem switchTo_of_boolean {branch : Schema} (h : branch.kind = .boolean) (v : Value) :
    v.switchTo branch = .bool v.truthy := by
  rw [switchTo, h]

/-! ### What a value counts as -/

section Counts

variable {s : Text} {x : Binary64}

theorem toNumber_of_some (h : Binary64.ofText? (Text.trim s) = some x) :
    (Value.string s).toNumber = .ofBinary64 x := by
  rw [toNumber, h]

theorem toNumber_of_none (h : Binary64.ofText? (Text.trim s) = none) :
    (Value.string s).toNumber = .int 0 := by
  rw [toNumber, h]

/-- A value counts as a finite number, unless it is one that is not. -/
theorem isFinite_toNumber {v : Value} (h : ∀ n, v = .number n → n.isFinite = true) :
    v.toNumber.isFinite = true := by
  cases v with
  | number n => exact h n rfl
  | string s =>
    cases hs : Binary64.ofText? (Text.trim s) with
    | none => rw [toNumber_of_none hs, Number.isFinite]
    | some x => rw [toNumber_of_some hs, Number.isFinite_ofBinary64]
  | null => rfl
  | bool b => rfl
  | array items => rfl
  | object entries => rfl

end Counts

variable {number boolean : Schema}

/-- A switch to numbers gives a finite number, and a second switch the same one; documents hold
finite numbers only. A text that writes an integer of magnitude below `2 ^ 63` gives this integer,
one that writes another finite number gives the number written, and any other text gives zero. A
boolean comes back from numbers as it was. -/
theorem switchTo_number (hnumber : number.kind = .number) (hboolean : boolean.kind = .boolean) :
    (∀ v : Value, (∀ n, v = .number n → n.isFinite = true) →
      ∃ n, v.switchTo number = .number n ∧ n.isFinite = true ∧
        (v.switchTo number).switchTo number = v.switchTo number) ∧
    (∀ s x, Binary64.ofText? (Text.trim s) = some x →
      (∀ n : ℤ, x.isFinite = true → x.toRat = n → |n| < 2 ^ 63 →
        (Value.string s).switchTo number = .number (.int n)) ∧
      (x.isFinite = true → (¬ ∃ n : ℤ, x.toRat = n ∧ |n| < 2 ^ 63) →
        (Value.string s).switchTo number = .number (.float x)) ∧
      (x.isFinite = false → (Value.string s).switchTo number = .number (.int 0))) ∧
    (∀ s, Binary64.ofText? (Text.trim s) = none →
      (Value.string s).switchTo number = .number (.int 0)) ∧
    ∀ b, ((Value.bool b).switchTo number).switchTo boolean = .bool b := by
  simp only [switchTo_of_number hnumber, switchTo_of_boolean hboolean]
  refine ⟨fun v hv => ⟨_, rfl, isFinite_toNumber hv, by rw [toNumber]⟩, fun s x hx => ?_,
    fun s hs => by rw [toNumber_of_none hs], fun b => by cases b <;> rfl⟩
  rw [toNumber_of_some hx]
  refine ⟨fun n hfinite hn hlimit => ?_, fun hfinite hother => ?_, fun h => ?_⟩
  · rw [Number.ofBinary64_of_int hfinite hn ((Binary64.abs_toRat_lt_limit_iff hn).2 hlimit)]
  · refine congrArg Value.number (Number.ofBinary64_of_finite hfinite ?_)
    rintro ⟨⟨n, hn⟩, hlimit⟩
    exact hother ⟨n, hn, (Binary64.abs_toRat_lt_limit_iff hn).1 hlimit⟩
  · rw [Number.ofBinary64_of_not_finite h]

/-- Numerals at the limit of the integers: the greatest integer of 64 bits is read as the number
above it, which is beyond the limit, and the number before that one is an integer. -/
theorem switchTo_number_limit :
    (Value.string " 9223372036854774784\n".toList).switchTo (.anonymous .number) =
        .number (.int 9223372036854774784) ∧
      (Value.string "9223372036854775807".toList).switchTo (.anonymous .number) =
        .number (.float (.ofNat (Nat.pow 2 63))) ∧
      (Value.string "-0.0".toList).switchTo (.anonymous .number) = .number (.int 0) ∧
      (Value.string "1e400".toList).switchTo (.anonymous .number) = .number (.int 0) ∧
      (Value.string " ".toList).switchTo (.anonymous .number) = .number (.int 0) ∧
      (∃ n, (Value.int 7).switchTo (.anonymous .number) = .number n ∧ n.isFinite = true ∧
        ((Value.int 7).switchTo (.anonymous .number)).switchTo (.anonymous .number) =
          (Value.int 7).switchTo (.anonymous .number)) ∧
      ((Value.bool true).switchTo (.anonymous .number)).switchTo (.anonymous .boolean) =
        .bool true := by
  obtain ⟨hvalue, htext, hnone, hbool⟩ :=
    @switchTo_number (.anonymous .number) (.anonymous .boolean) rfl rfl
  refine ⟨?_, ?_, ?_, ?_, hnone _ (by decide +kernel), hvalue _ ?_, hbool true⟩
  · refine (htext _ ⟨4890909195324358655⟩ (by decide +kernel)).1 _ (by decide +kernel) ?_
      (by decide +kernel)
    exact (Binary64.toRat_of_isWhole (by decide +kernel)).trans
      (congrArg Int.cast (by decide +kernel))
  · refine (htext _ _ (by decide +kernel)).2.1 (by decide +kernel) ?_
    rintro ⟨n, hn, hlimit⟩
    have hbelow := (Binary64.abs_toRat_lt_limit_iff hn).2 hlimit
    rw [← Binary64.abs_toRat_limit, ← Binary64.absLt_iff] at hbelow
    exact absurd hbelow (by decide +kernel)
  · refine (htext _ ⟨9223372036854775808⟩ (by decide +kernel)).1 _ (by decide +kernel) ?_
      (by decide +kernel)
    exact (Binary64.toRat_of_isWhole (by decide +kernel)).trans
      (congrArg Int.cast (by decide +kernel))
  · exact (htext _ (.infinity false) (by decide +kernel)).2.2 (by decide +kernel)
  · rintro n hn
    cases hn
    rfl

end Value

end InterfaceForms
