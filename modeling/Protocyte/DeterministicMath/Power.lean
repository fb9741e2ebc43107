import Protocyte.DeterministicMath.Binary
import Mathlib.Analysis.SpecialFunctions.Pow.Real

/-! Powers of finite floats: the routes on exact ratios and the decimal one. -/
namespace Protocyte.DeterministicMath

open Foundation InterchangeFormat Constants

/-- A finite binary64 value: its sign and its magnitude. -/
structure FiniteFloat where
  negative : Bool
  magnitude : ℚ
  representable : Width.w64.format.magnitudes.Representable magnitude
  lt_overflow : magnitude < 2 ^ (Width.w64.format.bias + 1)

theorem representable_natCast {n : ℕ} (h : n < 2 ^ 53) :
    Width.w64.format.magnitudes.Representable (n : ℚ) :=
  ⟨n, 0, h, by decide, by rw [zpow_zero, mul_one]⟩

theorem natCast_lt_overflow {n : ℕ} (h : n < 2 ^ 53) :
    (n : ℚ) < 2 ^ (Width.w64.format.bias + 1) := by
  calc (n : ℚ) < 2 ^ (53 : ℤ) := by exact_mod_cast h
    _ ≤ 2 ^ (Width.w64.format.bias + 1) := zpow_le_zpow_right₀ (by norm_num) (by decide)

/-- The integers that fit the significand. -/
def FiniteFloat.ofNat (negative : Bool) (n : ℕ) (h : n < 2 ^ 53) : FiniteFloat :=
  ⟨negative, n, representable_natCast h, natCast_lt_overflow h⟩

/-- The exact decimal form: the denominator is a power of two, so its digits end. -/
def decimalFromFloat (value : FiniteFloat) : Decimal :=
  let exponent := bitLength value.magnitude.den - 1
  ⟨value.negative, value.magnitude.num.natAbs * 5 ^ exponent, -exponent⟩

/-- The conversion to an integer drops the fraction. -/
def decimalToInt (exact : Decimal) : ℤ := exact.asIntegerRatio.1.tdiv exact.asIntegerRatio.2

def decimalExponentLimit : ℚ := 10000

def maxExactPowerBits : ℕ := 4096

/-- The operations of the fixed decimal context; each can trap. -/
structure DecimalContext where
  multiply : Decimal → Decimal → Option Decimal
  ln : Decimal → Option Decimal
  exp : Decimal → Option Decimal
  minus : Decimal → Option Decimal

def decimalToBinaryBits (value : Decimal) (width : Width) : ℕ :=
  ratioToBinaryBits value.copyAbs.asIntegerRatio.1.toNat value.copyAbs.asIntegerRatio.2
    value.isSigned width

def roundDecimal (value : Decimal) (width : Width) : Except DeterministicMathError BinaryValue :=
  finiteBinaryFloatFromBits (decimalToBinaryBits value width) width

def isPowerOfTwo (value : ℤ) : Bool :=
  decide (0 < value) && value.toNat &&& (value.toNat - 1) == 0

def exactPowerOfTwoResult (base exponent : Decimal) (negative : Bool) (width : Width) :
    Except DeterministicMathError (Option BinaryValue) :=
  let baseNumerator := base.asIntegerRatio.1
  let baseDenominator := base.asIntegerRatio.2
  if !(isPowerOfTwo baseNumerator && isPowerOfTwo baseDenominator) then .ok none
  else
    let baseExponent : ℤ := bitLength baseNumerator.natAbs - bitLength baseDenominator
    let resultNumerator := baseExponent * exponent.asIntegerRatio.1
    let resultExponent := resultNumerator / exponent.asIntegerRatio.2
    let remainder := resultNumerator % exponent.asIntegerRatio.2
    if remainder ≠ 0 then .ok none
    else (binaryPowerOfTwo resultExponent negative width).map some

def exactPowerOperandFits (value exponent : ℕ) : Bool :=
  value == 1 || decide (exponent ≤ maxExactPowerBits / bitLength value)

def exactIntegralPowerResult (base : Decimal) (exponent : ℤ) (negative : Bool) (width : Width) :
    Except DeterministicMathError (Option BinaryValue) :=
  let ratio := (base.asIntegerRatio.1.toNat, base.asIntegerRatio.2)
  let magnitude := exponent.natAbs
  let numerator := if exponent < 0 then ratio.2 else ratio.1
  let denominator := if exponent < 0 then ratio.1 else ratio.2
  if !(exactPowerOperandFits numerator magnitude && exactPowerOperandFits denominator magnitude) then
    .ok none
  else (roundRatio (numerator ^ magnitude) (denominator ^ magnitude) negative width).map some

/-- The last statement of `evaluate_pow`: the power through the logarithm. -/
def decimalPower (context : DecimalContext) (base exponent : Decimal) (negativeResult : Bool) :
    Except DeterministicMathError BinaryValue :=
  match (context.ln base).bind (context.multiply exponent) with
  | none => .error .nonFiniteError
  | some transformed =>
    if transformed.value > decimalExponentLimit then .error .nonFiniteError
    else if transformed.value < -decimalExponentLimit then .ok (.finite negativeResult 0)
    else
      match (context.exp transformed).bind
          (fun result => if negativeResult then context.minus result else some result) with
      | none => .error .nonFiniteError
      | some result => roundDecimal result .w64

def evaluatePow (context : DecimalContext) (base exponent : FiniteFloat) :
    Except DeterministicMathError BinaryValue :=
  let decimalBase := decimalFromFloat base
  let decimalExponent := decimalFromFloat exponent
  if decimalExponent.isZero then .ok (.finite false 1)
  else
    let integralExponent :=
      if decimalExponent.asIntegerRatio.2 = 1 then some (decimalToInt decimalExponent) else none
    let oddExponent := integralExponent.any (fun n => n % 2 == 1)
    if decimalBase.isZero then
      if decimalExponent.value < 0 then .error .domainError
      else .ok (.finite (decimalBase.isSigned && oddExponent) 0)
    else if decimalBase.value < 0 ∧ integralExponent = none then .error .domainError
    else
      let negativeResult := decide (decimalBase.value < 0) && oddExponent
      let decimalBase := if decimalBase.value < 0 then decimalBase.copyAbs else decimalBase
      if decimalBase.value = 1 then .ok (.finite negativeResult 1)
      else
        match exactPowerOfTwoResult decimalBase decimalExponent negativeResult .w64 with
        | .error error => .error error
        | .ok (some exactPowerOfTwo) => .ok exactPowerOfTwo
        | .ok none =>
          match integralExponent with
          | none => decimalPower context decimalBase decimalExponent negativeResult
          | some integralExponent =>
            match exactIntegralPowerResult decimalBase integralExponent negativeResult .w64 with
            | .error error => .error error
            | .ok (some exactIntegralPower) => .ok exactIntegralPower
            | .ok none => decimalPower context decimalBase decimalExponent negativeResult

section Decimals

variable {F : FloatFormat} {x y : ℚ}

theorem bitLength_two_pow (k : ℕ) : bitLength (2 ^ k) = k + 1 := by
  unfold bitLength
  rw [if_neg (Nat.two_pow_pos k).ne', Nat.log2_two_pow]

theorem den_of_representable (h : F.Representable y) : ∃ k, y.den = 2 ^ k := by
  obtain ⟨m, f, -, -, rfl⟩ := h
  have hdvd : (((m : ℚ) * 2 ^ f).den) ∣ 2 ^ (-f).toNat := by
    have hvalue : (m : ℚ) * 2 ^ f =
        ((m * 2 ^ f.toNat : ℕ) : ℤ) / ((2 ^ (-f).toNat : ℕ) : ℤ) := by
      push_cast
      rw [mul_div_assoc, ← zpow_natCast, ← zpow_natCast, ← zpow_sub₀ (by norm_num)]
      congr 2
      omega
    rw [hvalue]
    have hden := Rat.den_dvd ((m * 2 ^ f.toNat : ℕ) : ℤ) ((2 ^ (-f).toNat : ℕ) : ℤ)
    exact_mod_cast hden
  obtain ⟨k, -, hk⟩ := (Nat.dvd_prime_pow Nat.prime_two).mp hdvd
  exact ⟨k, hk⟩

namespace FiniteFloat

variable (value : FiniteFloat)

def toRat : ℚ := if value.negative then -value.magnitude else value.magnitude

theorem magnitude_nonneg : 0 ≤ value.magnitude := value.representable.nonneg

theorem decimal_magnitude : (decimalFromFloat value).magnitude = value.magnitude := by
  obtain ⟨k, hk⟩ := den_of_representable value.representable
  have hnum : 0 ≤ value.magnitude.num := Rat.num_nonneg.mpr value.magnitude_nonneg
  have hcast : ((value.magnitude.num.natAbs : ℕ) : ℚ) = value.magnitude.num := by
    rw [← Int.cast_natCast, Int.natAbs_of_nonneg hnum]
  unfold Decimal.magnitude decimalFromFloat
  simp only [hk, bitLength_two_pow, Nat.add_sub_cancel]
  push_cast
  rw [hcast, zpow_neg, zpow_natCast, show (10 : ℚ) = 5 * 2 by norm_num, mul_pow, mul_inv,
    mul_assoc, ← mul_assoc (5 ^ k), mul_inv_cancel₀ (by positivity), one_mul, ← div_eq_mul_inv]
  nth_rewrite 2 [← Rat.num_div_den value.magnitude]
  rw [hk]
  push_cast
  rfl

theorem decimal_value : (decimalFromFloat value).value = value.toRat := by
  unfold Decimal.value toRat
  rw [decimal_magnitude]
  rfl

theorem decimal_isZero : (decimalFromFloat value).isZero = decide (value.magnitude = 0) := by
  have hiff : (decimalFromFloat value).coefficient = 0 ↔ value.magnitude = 0 := by
    rw [← Rat.num_eq_zero, ← Int.natAbs_eq_zero]
    unfold decimalFromFloat
    simp only [mul_eq_zero, pow_eq_zero_iff', OfNat.ofNat_ne_zero, false_and, or_false]
  unfold Decimal.isZero
  rw [beq_eq_decide]
  exact decide_eq_decide.mpr hiff

theorem toRat_neg_iff : value.toRat < 0 ↔ value.negative = true ∧ value.magnitude ≠ 0 := by
  have hnonneg := value.magnitude_nonneg
  unfold toRat
  cases value.negative with
  | false => simpa using hnonneg
  | true =>
    simp only [if_true, neg_lt_zero, true_and]
    exact lt_iff_le_and_ne.trans ⟨fun h => h.2.symm, fun h => ⟨hnonneg, h.symm⟩⟩

end FiniteFloat

end Decimals

section Routes

variable {base exponent : Decimal} {negative : Bool} {width : Width}

theorem isPowerOfTwo_iff {value : ℕ} : isPowerOfTwo value = true ↔ ∃ k, value = 2 ^ k := by
  unfold isPowerOfTwo
  rw [Bool.and_eq_true, decide_eq_true_iff, beq_iff_eq, Int.toNat_natCast, Int.natCast_pos,
    Nat.pos_iff_ne_zero]
  exact Nat.ne_zero_and_sub_one_eq_zero_iff_isPowerOfTwo

/-- The power of the base to the exponent is the power of two `e`. -/
def IsPowerOfTwoPower (base exponent : ℚ) (e : ℤ) : Prop :=
  ∃ k : ℤ, base = 2 ^ k ∧ k * exponent = e

theorem num_den_two_zpow (k : ℤ) :
    ((2 : ℚ) ^ k).num = ((2 ^ k.toNat : ℕ) : ℤ) ∧ ((2 : ℚ) ^ k).den = 2 ^ (-k).toNat := by
  rcases le_or_gt 0 k with hpos | hneg
  · obtain ⟨n, rfl⟩ := Int.eq_ofNat_of_zero_le hpos
    have hcast : (2 : ℚ) ^ ((n : ℕ) : ℤ) = ((2 ^ n : ℕ) : ℚ) := by
      rw [zpow_natCast]
      norm_cast
    have hzero : (-(n : ℤ)).toNat = 0 := by omega
    rw [hcast, hzero, Int.toNat_natCast, Rat.num_natCast, Rat.den_natCast, pow_zero]
    exact ⟨rfl, rfl⟩
  · obtain ⟨n, hn⟩ := Int.eq_ofNat_of_zero_le (show 0 ≤ -k by omega)
    have hcast : (2 : ℚ) ^ k = (((2 ^ n : ℕ) : ℚ))⁻¹ := by
      rw [show k = -(n : ℤ) by omega, zpow_neg, zpow_natCast]
      norm_cast
    have hzero : k.toNat = 0 := by omega
    rw [hcast, hzero, hn, Int.toNat_natCast, Rat.inv_natCast_num_of_pos (Nat.two_pow_pos n),
      Rat.inv_natCast_den_of_pos (Nat.two_pow_pos n), pow_zero]
    exact ⟨rfl, rfl⟩

theorem intCast_mul_eq_iff (k e : ℤ) (x : ℚ) : (k : ℚ) * x = e ↔ k * x.num = e * x.den := by
  have hden : (x.den : ℚ) ≠ 0 := by exact_mod_cast x.den_ne_zero
  nth_rewrite 1 [← Rat.num_div_den x]
  rw [← mul_div_assoc, div_eq_iff hden]
  norm_cast

/-- The first exact route is taken exactly when the power is a power of two. -/
theorem exactPowerOfTwoResult_exits (exponent : Decimal) (negative : Bool) (width : Width)
    (hpos : 0 < base.value) :
    (exactPowerOfTwoResult base exponent negative width = .ok none ∧
        ∀ e, ¬IsPowerOfTwoPower base.value exponent.value e) ∨
      ∃ e, IsPowerOfTwoPower base.value exponent.value e ∧
        exactPowerOfTwoResult base exponent negative width =
          (binaryPowerOfTwo e negative width).map some := by
  have hnum : 0 < base.value.num := Rat.num_pos.mpr hpos
  obtain ⟨numerator, hnumerator⟩ := Int.eq_ofNat_of_zero_le hnum.le
  unfold exactPowerOfTwoResult Decimal.asIntegerRatio
  simp only [hnumerator, Int.natAbs_natCast]
  by_cases hpower : isPowerOfTwo numerator && isPowerOfTwo base.value.den
  · rw [hpower]
    rw [Bool.and_eq_true, isPowerOfTwo_iff, isPowerOfTwo_iff] at hpower
    obtain ⟨⟨a, ha⟩, b, hb⟩ := hpower
    have hbase : base.value = 2 ^ ((a : ℤ) - b) := by
      rw [zpow_sub₀ (by norm_num), zpow_natCast, zpow_natCast]
      nth_rewrite 1 [← Rat.num_div_den base.value]
      rw [hnumerator, ha, hb]
      push_cast
      rfl
    have hlength : (bitLength numerator : ℤ) - bitLength base.value.den = a - b := by
      rw [ha, hb, bitLength_two_pow, bitLength_two_pow]
      push_cast
      omega
    rw [hlength, Bool.not_true, if_neg Bool.false_ne_true]
    by_cases hrem : ((a : ℤ) - b) * exponent.value.num % exponent.value.den = 0
    · refine .inr ⟨_, ⟨a - b, hbase, ?_⟩, if_neg (not_not.mpr hrem)⟩
      rw [intCast_mul_eq_iff]
      exact (Int.ediv_mul_cancel (Int.dvd_of_emod_eq_zero hrem)).symm
    · refine .inl ⟨if_pos hrem, ?_⟩
      rintro e ⟨k, hk, he⟩
      have hkEq : k = a - b := zpow_right_injective₀ (a := (2 : ℚ)) (by norm_num) (by norm_num)
        (hk.symm.trans hbase)
      rw [intCast_mul_eq_iff, hkEq] at he
      rw [he, Int.mul_emod_left] at hrem
      exact hrem rfl
  · refine .inl ⟨?_, ?_⟩
    · rw [Bool.not_eq_true] at hpower
      rw [hpower]
      rfl
    · rintro e ⟨k, hk, -⟩
      obtain ⟨hnumEq, hdenEq⟩ := num_den_two_zpow k
      rw [← hk] at hnumEq hdenEq
      apply hpower
      rw [Bool.and_eq_true, isPowerOfTwo_iff, isPowerOfTwo_iff]
      exact ⟨⟨_, Int.ofNat_inj.mp (hnumerator.symm.trans hnumEq)⟩, _, hdenEq⟩

/-- Both parts of the base stay below the bound when raised to the exponent. -/
def OperandsFit (base : ℚ) (exponent : ℤ) : Prop :=
  exactPowerOperandFits base.num.toNat exponent.natAbs = true ∧
    exactPowerOperandFits base.den exponent.natAbs = true

theorem exactIntegralPowerResult_of_fits (negative : Bool) (width : Width) (hpos : 0 < base.value)
    {n : ℤ}
    (hfits : OperandsFit base.value n) :
    ∃ result, Rounded width negative (base.value ^ n) result ∧
      exactIntegralPowerResult base n negative width = result.map some := by
  obtain ⟨hnumFits, hdenFits⟩ := hfits
  have hnum : 0 < base.value.num := Rat.num_pos.mpr hpos
  have hnum' : 0 < base.value.num.toNat := by omega
  have hcast : ((base.value.num.toNat : ℕ) : ℚ) = base.value.num := by
    rw [← Int.cast_natCast, Int.toNat_of_nonneg hnum.le]
  have hvalue : base.value = base.value.num.toNat / base.value.den := by
    rw [hcast, Rat.num_div_den]
  unfold exactIntegralPowerResult Decimal.asIntegerRatio
  by_cases hneg : n < 0
  · refine ⟨roundRatio (base.value.den ^ n.natAbs) (base.value.num.toNat ^ n.natAbs) negative width,
      ?_, ?_⟩
    · have hpow : base.value ^ n = ((base.value.den ^ n.natAbs : ℕ) : ℚ) /
          ((base.value.num.toNat ^ n.natAbs : ℕ) : ℚ) := by
        have hn : n = -(n.natAbs : ℤ) := by omega
        nth_rewrite 1 [hn, hvalue]
        rw [zpow_neg, zpow_natCast, div_pow, inv_div]
        push_cast
        rfl
      rw [hpow]
      exact roundRatio_rounded _ (Nat.pow_pos hnum') negative width
    · simp only [if_pos hneg, hnumFits, hdenFits, Bool.and_self, Bool.not_true]
      rfl
  · refine ⟨roundRatio (base.value.num.toNat ^ n.natAbs) (base.value.den ^ n.natAbs) negative width,
      ?_, ?_⟩
    · have hpow : base.value ^ n = ((base.value.num.toNat ^ n.natAbs : ℕ) : ℚ) /
          ((base.value.den ^ n.natAbs : ℕ) : ℚ) := by
        have hn : n = (n.natAbs : ℤ) := by omega
        nth_rewrite 1 [hn, hvalue]
        rw [zpow_natCast, div_pow]
        push_cast
        rfl
      rw [hpow]
      exact roundRatio_rounded _ (Nat.pow_pos base.value.den_pos) negative width
    · simp only [if_neg hneg, hnumFits, hdenFits, Bool.and_self, Bool.not_true]
      rfl

end Routes

section Outcome

variable {context : DecimalContext} {base exponent : FiniteFloat} {x : ℚ} {negative : Bool}

def DomainError (base exponent : FiniteFloat) : Prop :=
  base.magnitude = 0 ∧ exponent.toRat < 0 ∨ base.toRat < 0 ∧ exponent.toRat.den ≠ 1

/-- The operands that are settled without the decimal logarithm. -/
def ExactPath (base exponent : FiniteFloat) : Prop :=
  exponent.magnitude = 0 ∨ base.magnitude = 0 ∨ base.magnitude = 1 ∨ DomainError base exponent ∨
    (∃ e, IsPowerOfTwoPower base.magnitude exponent.toRat e) ∨
    exponent.toRat.den = 1 ∧ OperandsFit base.magnitude exponent.toRat.num

/-- An odd integral exponent keeps the sign of the base. -/
def negativePower (base exponent : FiniteFloat) : Bool :=
  base.negative && (exponent.toRat.den == 1 && exponent.toRat.num % 2 == 1)

/-- The call raises a domain error, or returns the rounded power with its sign, or raises when that
one overflows. -/
def PowerOutcome (base exponent : FiniteFloat)
    (result : Except DeterministicMathError BinaryValue) : Prop :=
  (DomainError base exponent → result = .error .domainError) ∧
    (¬DomainError base exponent →
      ∃ r : ℚ, (r : ℝ) = (base.magnitude : ℝ) ^ (exponent.toRat : ℝ) ∧
        Rounded .w64 (negativePower base exponent) r result)

theorem FiniteFloat.toRat_eq_zero_iff (value : FiniteFloat) :
    value.toRat = 0 ↔ value.magnitude = 0 := by
  unfold FiniteFloat.toRat
  split_ifs
  · exact neg_eq_zero
  · rfl

theorem rounded_of_representable (hx : Width.w64.format.magnitudes.Representable x)
    (hlt : x < 2 ^ (Width.w64.format.bias + 1)) :
    Rounded .w64 negative x (.ok (.finite negative x)) :=
  ⟨x, hx.roundsTo, (if_pos hlt).symm⟩

theorem rounded_zero : Rounded .w64 negative 0 (.ok (.finite negative 0)) :=
  rounded_of_representable (FloatFormat.representable_zero _) (FloatFormat.two_zpow_pos _)

theorem rounded_one : Rounded .w64 negative 1 (.ok (.finite negative 1)) := by
  apply rounded_of_representable
  · exact FloatFormat.representable_two_zpow (e := 0) _ (by decide)
  · have hbias := bias_pos Width.w64.format
    exact one_lt_zpow₀ (by norm_num) (by omega)

theorem evaluatePow_exponent_zero (h : exponent.magnitude = 0) :
    PowerOutcome base exponent (evaluatePow context base exponent) := by
  have hrat : exponent.toRat = 0 := exponent.toRat_eq_zero_iff.mpr h
  have hvalue : evaluatePow context base exponent = .ok (.finite false 1) := by
    unfold evaluatePow
    simp only [FiniteFloat.decimal_isZero, h, decide_true]
    rfl
  refine ⟨?_, ?_⟩
  · rintro (⟨-, hneg⟩ | ⟨-, hden⟩)
    · rw [hrat] at hneg
      exact absurd hneg (lt_irrefl 0)
    · rw [hrat] at hden
      exact absurd rfl hden
  · intro _
    have hsign : negativePower base exponent = false := by
      unfold negativePower
      rw [hrat]
      exact Bool.and_false _
    refine ⟨1, ?_, ?_⟩
    · rw [hrat, Rat.cast_zero, Real.rpow_zero, Rat.cast_one]
    · rw [hvalue, hsign]
      exact rounded_one

/-- The integral exponent the call computes. -/
theorem integralExponent_eq (exponent : FiniteFloat) :
    (if (decimalFromFloat exponent).asIntegerRatio.2 = 1 then
        some (decimalToInt (decimalFromFloat exponent)) else none) =
      if exponent.toRat.den = 1 then some exponent.toRat.num else none := by
  unfold decimalToInt Decimal.asIntegerRatio
  rw [FiniteFloat.decimal_value]
  by_cases h : exponent.toRat.den = 1
  · simp only [h, if_true, Nat.cast_one, Int.tdiv_one]
  · simp only [h, if_false]

theorem oddExponent_eq (exponent : FiniteFloat) :
    (if exponent.toRat.den = 1 then some exponent.toRat.num else none).any (fun n => n % 2 == 1) =
      (exponent.toRat.den == 1 && exponent.toRat.num % 2 == 1) := by
  split_ifs with h
  · simp only [h, Option.any_some, BEq.rfl, Bool.true_and]
  · simp only [Option.any_none, beq_eq_false_iff_ne.mpr h, Bool.false_and]

theorem evaluatePow_base_zero (hexponent : exponent.magnitude ≠ 0) (h : base.magnitude = 0) :
    PowerOutcome base exponent (evaluatePow context base exponent) := by
  have hrat : base.toRat = 0 := base.toRat_eq_zero_iff.mpr h
  have hvalue : evaluatePow context base exponent =
      if exponent.toRat < 0 then .error .domainError
      else .ok (.finite (negativePower base exponent) 0) := by
    unfold evaluatePow
    simp only [FiniteFloat.decimal_isZero, h, hexponent, decide_true, decide_false, if_true,
      FiniteFloat.decimal_value, integralExponent_eq, oddExponent_eq]
    rfl
  have hdomain : DomainError base exponent ↔ exponent.toRat < 0 := by
    unfold DomainError
    simp only [h, true_and, hrat, lt_irrefl, false_and, or_false]
  rw [hvalue]
  refine ⟨?_, ?_⟩
  · intro hd
    exact if_pos (hdomain.mp hd)
  · intro hd
    have hne : (exponent.toRat : ℝ) ≠ 0 := by
      exact_mod_cast (exponent.toRat_eq_zero_iff.not.mpr hexponent)
    refine ⟨0, ?_, ?_⟩
    · rw [h, Rat.cast_zero, Real.zero_rpow hne]
    · rw [if_neg (hdomain.not.mp hd)]
      exact rounded_zero

/-- Past the zero operands the call works on the magnitude of the base. -/
theorem evaluatePow_nonzero (context : DecimalContext) (hexponent : exponent.magnitude ≠ 0)
    (hbase : base.magnitude ≠ 0) :
    ∃ decimalBase : Decimal, decimalBase.value = base.magnitude ∧
      evaluatePow context base exponent =
        if base.toRat < 0 ∧ exponent.toRat.den ≠ 1 then .error .domainError
        else if base.magnitude = 1 then .ok (.finite (negativePower base exponent) 1)
        else
          match exactPowerOfTwoResult decimalBase (decimalFromFloat exponent)
              (negativePower base exponent) .w64 with
          | .error error => .error error
          | .ok (some exactPowerOfTwo) => .ok exactPowerOfTwo
          | .ok none =>
            match if exponent.toRat.den = 1 then some exponent.toRat.num else none with
            | none => decimalPower context decimalBase (decimalFromFloat exponent)
                (negativePower base exponent)
            | some integralExponent =>
              match exactIntegralPowerResult decimalBase integralExponent
                  (negativePower base exponent) .w64 with
              | .error error => .error error
              | .ok (some exactIntegralPower) => .ok exactIntegralPower
              | .ok none => decimalPower context decimalBase (decimalFromFloat exponent)
                  (negativePower base exponent) := by
  have hsign : decide (base.toRat < 0) = base.negative := by
    cases hneg : base.negative with
    | true => exact decide_eq_true (base.toRat_neg_iff.mpr ⟨hneg, hbase⟩)
    | false =>
      apply decide_eq_false
      rw [base.toRat_neg_iff, hneg]
      exact fun h => Bool.false_ne_true h.1
  have hnone : (if exponent.toRat.den = 1 then some exponent.toRat.num else none) = none ↔
      exponent.toRat.den ≠ 1 := by
    split_ifs with h <;> simp [h]
  have hvalue : (if base.toRat < 0 then (decimalFromFloat base).copyAbs
      else decimalFromFloat base).value = base.magnitude := by
    split_ifs with hneg
    · rw [Decimal.copyAbs_value, FiniteFloat.decimal_magnitude]
    · have hpos : base.negative = false := by
        rw [← hsign]
        exact decide_eq_false hneg
      rw [FiniteFloat.decimal_value]
      unfold FiniteFloat.toRat
      rw [hpos]
      rfl
  refine ⟨_, hvalue, ?_⟩
  unfold evaluatePow
  simp only [FiniteFloat.decimal_isZero, hbase, hexponent, decide_false, Bool.false_eq_true,
    if_false, FiniteFloat.decimal_value, integralExponent_eq, oddExponent_eq, hnone, hvalue, hsign]
  rfl

/-- The routes past the zero operands. -/
theorem evaluatePow_of_nonzero (hexponent : exponent.magnitude ≠ 0) (hbase : base.magnitude ≠ 0)
    (hpath : ExactPath base exponent) :
    PowerOutcome base exponent (evaluatePow context base exponent) := by
  have hdomain : DomainError base exponent ↔ base.toRat < 0 ∧ exponent.toRat.den ≠ 1 := by
    unfold DomainError
    simp only [hbase, false_and, false_or]
  have hpos : 0 < base.magnitude := lt_of_le_of_ne base.magnitude_nonneg (Ne.symm hbase)
  obtain ⟨decimalBase, hvalue, heval⟩ :=
    evaluatePow_nonzero context hexponent hbase
  rw [heval]
  refine ⟨fun hd => if_pos (hdomain.mp hd), ?_⟩
  intro hd
  rw [if_neg (hdomain.not.mp hd)]
  by_cases hunit : base.magnitude = 1
  · refine ⟨1, ?_, ?_⟩
    · rw [hunit, Rat.cast_one, Real.one_rpow]
    · rw [if_pos hunit]
      exact rounded_one
  rw [if_neg hunit]
  have hpos' : 0 < decimalBase.value := hvalue.symm ▸ hpos
  rcases exactPowerOfTwoResult_exits (decimalFromFloat exponent) (negativePower base exponent)
      .w64 hpos' with
    ⟨hnone, hnot⟩ | ⟨e, ⟨k, hk, he⟩, hroute⟩
  · rw [hvalue, FiniteFloat.decimal_value] at hnot
    have hintegral : exponent.toRat.den = 1 ∧ OperandsFit base.magnitude exponent.toRat.num := by
      rcases hpath with h | h | h | h | ⟨e, h⟩ | h
      · exact absurd h hexponent
      · exact absurd h hbase
      · exact absurd h hunit
      · exact absurd h hd
      · exact absurd h (hnot e)
      · exact h
    obtain ⟨result, hrounded, hroute⟩ := exactIntegralPowerResult_of_fits
      (negativePower base exponent) .w64 hpos' (hvalue.symm ▸ hintegral.2)
    have hexact : exponent.toRat = exponent.toRat.num := by
      nth_rewrite 1 [← Rat.num_div_den exponent.toRat]
      rw [hintegral.1, Nat.cast_one, div_one]
    refine ⟨base.magnitude ^ exponent.toRat.num, ?_, ?_⟩
    · nth_rewrite 2 [hexact]
      rw [Rat.cast_intCast, Real.rpow_intCast]
      exact Rat.cast_zpow _ _
    · rw [hvalue] at hrounded
      simp only [hnone, if_pos hintegral.1, hroute]
      cases result with
      | error error => exact hrounded
      | ok value => exact hrounded
  · rw [hvalue] at hk
    rw [FiniteFloat.decimal_value] at he
    refine ⟨2 ^ e, ?_, ?_⟩
    · have he' : (k : ℝ) * (exponent.toRat : ℝ) = e := by exact_mod_cast he
      rw [hk, Rat.cast_zpow, Rat.cast_zpow, Rat.cast_ofNat, ← Real.rpow_intCast,
        ← Real.rpow_intCast, ← Real.rpow_mul (by norm_num), he']
    · have hrounded := binaryPowerOfTwo_rounded e (negativePower base exponent) .w64
      rw [hroute]
      cases hresult : binaryPowerOfTwo e (negativePower base exponent) .w64 with
      | error error =>
        rw [hresult] at hrounded
        exact hrounded
      | ok value =>
        rw [hresult] at hrounded
        exact hrounded

/-- On the exact routes the power is correctly rounded. -/
theorem evaluatePow_of_exactPath (hpath : ExactPath base exponent) :
    PowerOutcome base exponent (evaluatePow context base exponent) := by
  by_cases hexponent : exponent.magnitude = 0
  · exact evaluatePow_exponent_zero hexponent
  · by_cases hbase : base.magnitude = 0
    · exact evaluatePow_base_zero hexponent hbase
    · exact evaluatePow_of_nonzero hexponent hbase hpath

end Outcome

/-- Ratios and powers of two are rounded to the nearest value, and so are the powers on the exact
routes. -/
theorem deterministicMath_rounded (context : DecimalContext) :
    (∀ (numerator denominator : ℕ) (negative : Bool) (width : Width), 0 < denominator →
      Encodes width negative ((numerator : ℚ) / denominator)
        (ratioToBinaryBits numerator denominator negative width)) ∧
    (∀ (e : ℤ) (negative : Bool) (width : Width),
      (e ≤ (binaryFormats width).maxExponent → ∀ numerator denominator : ℕ, 0 < denominator →
        (numerator : ℚ) / denominator = 2 ^ e →
        binaryPowerOfTwo e negative width =
          .ok (binaryFloatFromBits (ratioToBinaryBits numerator denominator negative width) width)) ∧
      ((binaryFormats width).maxExponent < e →
        binaryPowerOfTwo e negative width = .error .nonFiniteError)) ∧
    ∀ base exponent : FiniteFloat, ExactPath base exponent →
      PowerOutcome base exponent (evaluatePow context base exponent) := by
  refine ⟨?_, ?_, ?_⟩
  · intro numerator denominator negative width hd
    exact ratioToBinaryBits_encodes numerator hd negative width
  · intro e negative width
    rw [binaryFormats_eq]
    exact ⟨fun he numerator denominator hd hratio => binaryPowerOfTwo_eq hd hratio he,
      binaryPowerOfTwo_of_gt⟩
  · intro base exponent hpath
    exact evaluatePow_of_exactPath hpath

theorem three_lt : 3 < 2 ^ 53 := by norm_num

theorem deterministicMath_rounded_samples :
    Encodes .w32 true (1 / 3) (ratioToBinaryBits 1 3 true .w32) ∧
    binaryPowerOfTwo 3 true .w32 = .ok (binaryFloatFromBits (ratioToBinaryBits 8 1 true .w32) .w32) ∧
    binaryPowerOfTwo 1024 false .w64 = .error .nonFiniteError ∧
    PowerOutcome (.ofNat true 3 three_lt) (.ofNat false 3 three_lt)
      (evaluatePow ⟨fun _ _ => none, fun _ => none, fun _ => none, fun _ => none⟩
        (.ofNat true 3 three_lt) (.ofNat false 3 three_lt)) := by
  have h := deterministicMath_rounded ⟨fun _ _ => none, fun _ => none, fun _ => none, fun _ => none⟩
  refine ⟨?_, ?_, ?_, ?_⟩
  · exact_mod_cast h.1 1 3 true .w32 (by norm_num)
  · exact (h.2.1 3 true .w32).1 (by decide) 8 1 (by norm_num) (by norm_num)
  · exact (h.2.1 1024 false .w64).2 (by decide)
  · apply h.2.2
    refine .inr (.inr (.inr (.inr (.inr ⟨rfl, ?_, ?_⟩))))
    · rfl
    · rfl

example : evaluatePow ⟨fun _ _ => none, fun _ => none, fun _ => none, fun _ => none⟩
    (.ofNat true 3 three_lt) (.ofNat false 3 three_lt) = .ok (.finite true 27) := by
  decide +kernel

end Protocyte.DeterministicMath
