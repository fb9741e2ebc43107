import Protocyte.Constants.Value
import Protocyte.Foundation.NearestEven
import Mathlib.Data.Int.Bitwise
import Mathlib.Tactic.NormNum

/-! The conversion of a decimal default value to binary32, done on exact ratios so that the text is
rounded once. -/
namespace Protocyte.Constants

open Foundation

structure Decimal where
  signed : Bool
  coefficient : ℕ
  exponent : ℤ
deriving DecidableEq, Repr

namespace Decimal

def isSigned (exact : Decimal) : Bool := exact.signed

def isZero (exact : Decimal) : Bool := exact.coefficient == 0

def copyAbs (exact : Decimal) : Decimal := { exact with signed := false }

/-- The exponent of the leading digit. -/
def adjusted (exact : Decimal) : ℤ := exact.exponent + Nat.log 10 exact.coefficient

def magnitude (exact : Decimal) : ℚ := exact.coefficient * 10 ^ exact.exponent

def value (exact : Decimal) : ℚ := if exact.signed then -exact.magnitude else exact.magnitude

/-- The ratio of integers in lowest terms, with a positive denominator. -/
def asIntegerRatio (exact : Decimal) : ℤ × ℕ := (exact.value.num, exact.value.den)

end Decimal

/-- What the conversion can raise: its own error, or the one of packing an integer that does not
fit 32 bits. -/
inductive FloatDefaultError where
  | protocyteError (error : ProtocyteError)
  | structError
deriving DecidableEq, Repr

def maxFloatingDefaultTextLength : ℕ := 62

def renderFloatingDefault (repr : String → String) (value : String) : String :=
  if value.length ≤ maxFloatingDefaultTextLength then repr value
  else repr (String.ofList (value.toList.take 48)) ++ "... (" ++ toString value.length ++
    " characters)"

def invalidFloatingDefault (repr : String → String) (value label : String) : FloatDefaultError :=
  .protocyteError ⟨label ++ ": invalid floating-point default value " ++
    renderFloatingDefault repr value⟩

/-- The bits of a binary32 value. -/
structure F32 where
  bits : ℕ
  bits_lt : bits < 2 ^ 32
deriving DecidableEq, Repr

namespace F32

/-- The value of a pattern that is neither infinite nor a NaN. -/
def toRat (x : F32) : Option ℚ :=
  let sign : ℚ := if x.bits < 2 ^ 31 then 1 else -1
  let exponent : ℕ := x.bits / 2 ^ 23 % 2 ^ 8
  let fraction : ℕ := x.bits % 2 ^ 23
  if exponent = 255 then none
  else if exponent = 0 then some (sign * (fraction * 2 ^ (-149 : ℤ)))
  else some (sign * ((2 ^ 23 + fraction) * 2 ^ ((exponent : ℤ) - 150)))

end F32

def f32FromBits (bits : ℤ) : Except FloatDefaultError F32 :=
  if h : bits.toNat < 2 ^ 32 then
    if 0 ≤ bits then .ok ⟨bits.toNat, h⟩ else .error .structError
  else .error .structError

def rationalFloorLog2 (numerator denominator : ℕ) : ℤ :=
  let exponent : ℤ := bitLength numerator - bitLength denominator
  if 0 ≤ exponent then
    if numerator < denominator <<< exponent.toNat then exponent - 1 else exponent
  else if numerator <<< (-exponent).toNat < denominator then exponent - 1
  else exponent

def roundRatioToInteger (numerator denominator : ℕ) (binaryShift : ℤ) : ℕ :=
  let scaledNumerator := if 0 ≤ binaryShift then numerator <<< binaryShift.toNat else numerator
  let scaledDenominator :=
    if 0 ≤ binaryShift then denominator else denominator <<< (-binaryShift).toNat
  let quotient := scaledNumerator / scaledDenominator
  let doubledRemainder := (scaledNumerator % scaledDenominator) <<< 1
  if scaledDenominator < doubledRemainder ∨
      (doubledRemainder = scaledDenominator ∧ quotient &&& 1 = 1) then
    quotient + 1
  else quotient

/-- The last three statements of `_protobuf_f32`. -/
def assembleF32 (signBit : ℤ) (exponent : ℤ) (significand : ℕ) : Except FloatDefaultError F32 :=
  let exponentBits := (exponent + 127) <<< 23
  let fractionBits := (significand : ℤ) - 1 <<< 23
  f32FromBits (Int.lor (Int.lor signBit exponentBits) fractionBits)

def protobufF32 (repr : String → String) (exact : Decimal) (value label : String) :
    Except FloatDefaultError F32 :=
  let invalid := invalidFloatingDefault repr value label
  let signBit : ℤ := if exact.isSigned then 0x80000000 else 0
  if exact.isZero then f32FromBits signBit
  else
    let magnitude := exact.copyAbs
    if magnitude.adjusted < -38 ∨ magnitude.adjusted > 38 then .error invalid
    else
      let numerator := magnitude.asIntegerRatio.1.toNat
      let denominator := magnitude.asIntegerRatio.2
      let exponent := rationalFloorLog2 numerator denominator
      if exponent < -126 then
        let significand := roundRatioToInteger numerator denominator 149
        if significand < 1 <<< 23 then .error invalid
        else assembleF32 signBit (-126) significand
      else if exponent > 127 then .error invalid
      else
        let significand := roundRatioToInteger numerator denominator (23 - exponent)
        if significand = 1 <<< 24 then
          if exponent + 1 > 127 then .error invalid
          else assembleF32 signBit (exponent + 1) (significand >>> 1)
        else assembleF32 signBit exponent significand

section Ratios

variable {numerator denominator : ℕ}

theorem lt_two_pow_bitLength (value : ℕ) : value < 2 ^ bitLength value := by
  unfold bitLength
  split_ifs with h
  · simp [h]
  · exact Nat.lt_log2_self

theorem two_pow_bitLength_le (h : 0 < value) : 2 ^ bitLength value ≤ 2 * value := by
  unfold bitLength
  rw [if_neg h.ne', pow_succ, mul_comm]
  exact Nat.mul_le_mul_left 2 (Nat.log2_self_le h.ne')

theorem log_eq_of_bounds {x : ℚ} {e : ℤ} (hlow : 2 ^ e ≤ x) (hhigh : x < 2 ^ (e + 1)) :
    Int.log 2 x = e := by
  have hx : 0 < x := (FloatFormat.two_zpow_pos e).trans_le hlow
  have hle : e ≤ Int.log 2 x := (Int.zpow_le_iff_le_log (by norm_num) hx).mp (by exact_mod_cast hlow)
  have hlt : Int.log 2 x < e + 1 :=
    (Int.lt_zpow_iff_log_lt (by norm_num) hx).mp (by exact_mod_cast hhigh)
  omega

theorem ratio_lt_two_zpow_iff (hd : 0 < denominator) {e : ℤ} :
    (numerator : ℚ) / denominator < 2 ^ e ↔
      numerator * 2 ^ (-e).toNat < denominator * 2 ^ e.toNat := by
  have hd' : (0 : ℚ) < denominator := by exact_mod_cast hd
  rw [div_lt_iff₀ hd']
  rcases le_or_gt 0 e with hpos | hneg
  · obtain ⟨k, rfl⟩ := Int.eq_ofNat_of_zero_le hpos
    rw [zpow_natCast, mul_comm]
    norm_cast
    simp
  · obtain ⟨k, hk⟩ := Int.eq_ofNat_of_zero_le (show 0 ≤ -e by omega)
    rw [show e = -(k : ℤ) by omega, zpow_neg, zpow_natCast, inv_mul_eq_div, lt_div_iff₀ (by positivity)]
    norm_cast
    simp

/-- The difference of the bit lengths is the exponent or one too large. -/
theorem bitLength_bounds (hn : 0 < numerator) (hd : 0 < denominator) :
    (2 : ℚ) ^ ((bitLength numerator : ℤ) - bitLength denominator - 1) ≤ numerator / denominator ∧
      (numerator : ℚ) / denominator <
        2 ^ ((bitLength numerator : ℤ) - bitLength denominator + 1) := by
  have hd' : (0 : ℚ) < denominator := by exact_mod_cast hd
  have hnLow : (2 : ℚ) ^ bitLength numerator ≤ 2 * numerator := by
    exact_mod_cast two_pow_bitLength_le hn
  have hnHigh : (numerator : ℚ) < 2 ^ bitLength numerator := by
    exact_mod_cast lt_two_pow_bitLength numerator
  have hdLow : (2 : ℚ) ^ bitLength denominator ≤ 2 * denominator := by
    exact_mod_cast two_pow_bitLength_le hd
  have hdHigh : (denominator : ℚ) < 2 ^ bitLength denominator := by
    exact_mod_cast lt_two_pow_bitLength denominator
  have hpow := FloatFormat.two_zpow_pos (bitLength denominator)
  rw [zpow_natCast] at hpow
  constructor
  · rw [zpow_sub₀ (by norm_num), zpow_sub₀ (by norm_num), zpow_natCast, zpow_natCast, zpow_one,
      div_div, div_le_div_iff₀ (by positivity) hd']
    calc (2 : ℚ) ^ bitLength numerator * denominator ≤ 2 * numerator * denominator :=
          mul_le_mul_of_nonneg_right hnLow hd'.le
      _ ≤ 2 * numerator * 2 ^ bitLength denominator :=
          mul_le_mul_of_nonneg_left hdHigh.le (by positivity)
      _ = numerator * (2 ^ bitLength denominator * 2) := by ring
  · rw [zpow_add₀ (by norm_num), zpow_sub₀ (by norm_num), zpow_natCast, zpow_natCast, zpow_one,
      div_mul_eq_mul_div, div_lt_div_iff₀ hd' hpow]
    calc (numerator : ℚ) * 2 ^ bitLength denominator
        < 2 ^ bitLength numerator * 2 ^ bitLength denominator :=
          mul_lt_mul_of_pos_right hnHigh hpow
      _ ≤ 2 ^ bitLength numerator * (2 * denominator) :=
          mul_le_mul_of_nonneg_left hdLow (by positivity)
      _ = 2 ^ bitLength numerator * 2 * denominator := by ring

theorem rationalFloorLog2_eq_ite (hd : 0 < denominator) :
    rationalFloorLog2 numerator denominator =
      if (numerator : ℚ) / denominator < 2 ^ ((bitLength numerator : ℤ) - bitLength denominator) then
        (bitLength numerator : ℤ) - bitLength denominator - 1
      else (bitLength numerator : ℤ) - bitLength denominator := by
  unfold rationalFloorLog2
  simp only [Nat.shiftLeft_eq, ratio_lt_two_zpow_iff hd]
  split_ifs with hpos hshift hlt hlt hshift hlt hlt
  · rfl
  · rw [show (-((bitLength numerator : ℤ) - bitLength denominator)).toNat = 0 by omega] at hlt
    omega
  · rw [show (-((bitLength numerator : ℤ) - bitLength denominator)).toNat = 0 by omega] at hlt
    omega
  · rfl
  · rfl
  · rw [show ((bitLength numerator : ℤ) - bitLength denominator).toNat = 0 by omega] at hlt
    omega
  · rw [show ((bitLength numerator : ℤ) - bitLength denominator).toNat = 0 by omega] at hlt
    omega
  · rfl

theorem rationalFloorLog2_eq (hn : 0 < numerator) (hd : 0 < denominator) :
    rationalFloorLog2 numerator denominator = Int.log 2 ((numerator : ℚ) / denominator) := by
  obtain ⟨hlow, hhigh⟩ := bitLength_bounds hn hd
  rw [rationalFloorLog2_eq_ite hd]
  split_ifs with hlt
  · rw [log_eq_of_bounds hlow]
    rwa [sub_add_cancel]
  · rw [log_eq_of_bounds (not_lt.mp hlt) hhigh]

theorem ratio_sub_floor (hd : 0 < denominator) :
    (numerator : ℚ) / denominator - (numerator / denominator : ℕ) =
      (numerator % denominator : ℕ) / denominator := by
  have hd' : (denominator : ℚ) ≠ 0 := by exact_mod_cast hd.ne'
  have hdiv : (numerator : ℚ) = denominator * (numerator / denominator : ℕ) +
      (numerator % denominator : ℕ) := by
    exact_mod_cast (Nat.div_add_mod numerator denominator).symm
  rw [sub_eq_iff_eq_add, div_eq_iff hd', add_mul, div_mul_cancel₀ _ hd']
  linarith

theorem roundEven_ratio (hd : 0 < denominator) :
    roundEven ((numerator : ℚ) / denominator) =
      if denominator < (numerator % denominator) <<< 1 ∨
          ((numerator % denominator) <<< 1 = denominator ∧ numerator / denominator &&& 1 = 1) then
        ((numerator / denominator + 1 : ℕ) : ℤ)
      else (numerator / denominator : ℕ) := by
  have hd' : (0 : ℚ) < denominator := by exact_mod_cast hd
  have hlt : (numerator % denominator : ℕ) / (denominator : ℚ) < 1 / 2 ↔
      numerator % denominator * 2 < denominator := by
    rw [div_lt_div_iff₀ hd' (by norm_num)]
    norm_cast
    rw [one_mul]
  have heq : (numerator % denominator : ℕ) / (denominator : ℚ) = 1 / 2 ↔
      numerator % denominator * 2 = denominator := by
    rw [div_eq_div_iff hd'.ne' (by norm_num)]
    norm_cast
    rw [one_mul]
  unfold roundEven
  rw [Rat.floor_natCast_div_natCast, ← Int.natCast_div, Int.cast_natCast, ratio_sub_floor hd]
  simp only [hlt, heq, Nat.shiftLeft_eq, pow_one, Nat.and_one_is_mod]
  split_ifs <;> push_cast <;> omega

theorem roundRatioToInteger_eq (hd : 0 < denominator) (binaryShift : ℤ) :
    (roundRatioToInteger numerator denominator binaryShift : ℤ) =
      roundEven ((numerator : ℚ) / denominator * 2 ^ binaryShift) := by
  unfold roundRatioToInteger
  rcases le_or_gt 0 binaryShift with hpos | hneg
  · have hscaled : (numerator : ℚ) / denominator * 2 ^ binaryShift =
        ((numerator <<< binaryShift.toNat : ℕ) : ℚ) / denominator := by
      nth_rewrite 1 [← Int.toNat_of_nonneg hpos]
      rw [zpow_natCast, Nat.shiftLeft_eq]
      push_cast
      ring
    rw [hscaled, roundEven_ratio hd]
    simp only [if_pos hpos]
    split_ifs <;> rfl
  · have hscaled : (numerator : ℚ) / denominator * 2 ^ binaryShift =
        (numerator : ℚ) / ((denominator <<< (-binaryShift).toNat : ℕ) : ℚ) := by
      nth_rewrite 1 [show binaryShift = -((-binaryShift).toNat : ℤ) by omega]
      rw [zpow_neg, zpow_natCast, Nat.shiftLeft_eq]
      push_cast
      field_simp
    rw [hscaled, roundEven_ratio (by rw [Nat.shiftLeft_eq]; positivity)]
    simp only [if_neg (not_le.mpr hneg)]
    split_ifs <;> rfl

end Ratios

section Packing

theorem f32FromBits_natCast {bits : ℕ} (h : bits < 2 ^ 32) : f32FromBits bits = .ok ⟨bits, h⟩ := by
  unfold f32FromBits
  rw [dif_pos (show (bits : ℤ).toNat < 2 ^ 32 by omega), if_pos (Int.natCast_nonneg bits)]
  rfl

/-- The three fields occupy different bits. -/
theorem lor_fields {sign exponent fraction : ℕ} (hexponent : exponent < 2 ^ 8)
    (hfraction : fraction < 2 ^ 23) :
    (sign <<< 31 ||| exponent <<< 23) ||| fraction =
      sign * 2 ^ 31 + exponent * 2 ^ 23 + fraction := by
  have hexponent' : exponent <<< 23 < 2 ^ 31 := by
    rw [Nat.shiftLeft_eq]
    omega
  rw [← Nat.shiftLeft_add_eq_or_of_lt hexponent']
  have hshift : sign <<< 31 + exponent <<< 23 = (sign * 2 ^ 8 + exponent) <<< 23 := by
    simp only [Nat.shiftLeft_eq]
    omega
  rw [hshift, ← Nat.shiftLeft_add_eq_or_of_lt hfraction, Nat.shiftLeft_eq]
  omega

theorem toRat_fields {sign exponent fraction : ℕ} (hexponent : exponent < 2 ^ 8)
    (hpos : exponent ≠ 0) (hfinite : exponent ≠ 255) (hfraction : fraction < 2 ^ 23)
    (h : sign * 2 ^ 31 + exponent * 2 ^ 23 + fraction < 2 ^ 32) :
    F32.toRat ⟨sign * 2 ^ 31 + exponent * 2 ^ 23 + fraction, h⟩ =
      some ((if sign = 0 then 1 else -1) *
        ((2 ^ 23 + (fraction : ℚ)) * 2 ^ ((exponent : ℤ) - 150))) := by
  have hsign : sign * 2 ^ 31 + exponent * 2 ^ 23 + fraction < 2 ^ 31 ↔ sign = 0 := by omega
  have hexp : (sign * 2 ^ 31 + exponent * 2 ^ 23 + fraction) / 2 ^ 23 % 2 ^ 8 = exponent := by
    omega
  have hfrac : (sign * 2 ^ 31 + exponent * 2 ^ 23 + fraction) % 2 ^ 23 = fraction := by omega
  unfold F32.toRat
  simp only [hsign, hexp, hfrac, if_neg hpos, if_neg hfinite]

theorem assembleF32_eq (negative : Bool) (exponent : ℤ) (significand : ℕ)
    (hlow : -126 ≤ exponent) (hhigh : exponent ≤ 127) (hfull : 2 ^ 23 ≤ significand)
    (hlt : significand < 2 ^ 24) :
    ∃ x, assembleF32 (if negative then 0x80000000 else 0) exponent significand = .ok x ∧
      x.toRat = some (if negative then -((significand : ℚ) * 2 ^ (exponent - 23))
        else (significand : ℚ) * 2 ^ (exponent - 23)) := by
  obtain ⟨biased, hbiased⟩ := Int.eq_ofNat_of_zero_le (show 0 ≤ exponent + 127 by omega)
  obtain ⟨fraction, rfl⟩ := Nat.exists_eq_add_of_le hfull
  have hexponent : biased < 2 ^ 8 := by omega
  have hfraction : fraction < 2 ^ 23 := by omega
  have hsign : (if negative then 0x80000000 else 0 : ℤ) = ((negative.toNat <<< 31 : ℕ) : ℤ) := by
    cases negative <;> rfl
  have hsignLt : negative.toNat < 2 := by cases negative <;> decide
  have hbits : negative.toNat * 2 ^ 31 + biased * 2 ^ 23 + fraction < 2 ^ 32 := by omega
  refine ⟨⟨_, hbits⟩, ?_, ?_⟩
  · unfold assembleF32
    have hexponentBits : (exponent + 127) <<< 23 = ((biased <<< 23 : ℕ) : ℤ) := by
      rw [hbiased]
      rfl
    have hfractionBits : ((2 ^ 23 + fraction : ℕ) : ℤ) - 1 <<< 23 = (fraction : ℤ) := by
      push_cast
      omega
    rw [hsign, hexponentBits, hfractionBits]
    show f32FromBits (((negative.toNat <<< 31 ||| biased <<< 23) ||| fraction : ℕ) : ℤ) = _
    rw [lor_fields hexponent hfraction]
    exact f32FromBits_natCast hbits
  · rw [toRat_fields hexponent (by omega) (by omega) hfraction]
    have hexp : (biased : ℤ) - 150 = exponent - 23 := by omega
    rw [hexp]
    cases negative
    · norm_num
    · norm_num

end Packing

theorem one_lt_precision_binary32 : 1 < 24 := by norm_num

/-- The magnitudes of binary32, without the bound on large exponents. -/
def binary32 : FloatFormat := ⟨24, one_lt_precision_binary32, -149⟩

section Rounding

variable {x y : ℚ}

theorem binary32_lastPlace (x : ℚ) : binary32.lastPlace x = max (Int.log 2 x - 23) (-149) := by
  unfold FloatFormat.lastPlace binary32
  norm_num

theorem representable_smallestNormal : binary32.Representable (2 ^ (-126 : ℤ)) :=
  ⟨2 ^ 23, -149, by norm_num [binary32], by norm_num [binary32], by norm_num⟩

theorem representable_largestSubnormal :
    binary32.Representable ((2 ^ 23 - 1) * 2 ^ (-149 : ℤ)) :=
  ⟨2 ^ 23 - 1, -149, by norm_num [binary32], by norm_num [binary32], by norm_num⟩

theorem representable_overflow : binary32.Representable (2 ^ (128 : ℤ)) :=
  ⟨1, 128, by norm_num [binary32], by norm_num [binary32], by norm_num⟩

theorem two_pow_mul_zpow (k : ℕ) (e : ℤ) : ((2 ^ k : ℕ) : ℚ) * 2 ^ e = 2 ^ (k + e) := by
  rw [Nat.cast_pow, ← zpow_natCast, zpow_add₀ (by norm_num)]
  rfl

theorem nearest_of_small (h : Int.log 2 x < -126) :
    binary32.nearest x = roundEven (x * 2 ^ (149 : ℤ)) * 2 ^ (-149 : ℤ) := by
  have hplace : binary32.lastPlace x = binary32.leastExponent := by
    rw [binary32_lastPlace]
    show max (Int.log 2 x - 23) (-149) = -149
    omega
  exact FloatFormat.nearest_of_least hplace

theorem nearest_of_normal (hx : 0 < x) (h : -126 ≤ Int.log 2 x) :
    binary32.nearest x = roundEven (x * 2 ^ (23 - Int.log 2 x)) * 2 ^ (Int.log 2 x - 23) ∧
      2 ^ 23 ≤ roundEven (x * 2 ^ (23 - Int.log 2 x)) ∧
      roundEven (x * 2 ^ (23 - Int.log 2 x)) ≤ 2 ^ 24 := by
  have hplace : binary32.lastPlace x = Int.log 2 x - (binary32.precision - 1) := by
    rw [binary32_lastPlace]
    show max (Int.log 2 x - 23) (-149) = Int.log 2 x - (24 - 1)
    omega
  exact FloatFormat.nearest_of_normal hx hplace

end Rounding

namespace Decimal

variable {exact : Decimal}

theorem magnitude_pos (hne : exact.coefficient ≠ 0) : 0 < exact.magnitude := by
  unfold magnitude
  positivity

theorem abs_value (exact : Decimal) : |exact.value| = exact.magnitude := by
  have hnonneg : 0 ≤ exact.magnitude := by
    unfold magnitude
    positivity
  unfold value
  split_ifs
  · rw [abs_neg, abs_of_nonneg hnonneg]
  · exact abs_of_nonneg hnonneg

theorem magnitude_le_of_adjusted (h : exact.adjusted < -38) :
    exact.magnitude ≤ (2 ^ 23 - 1) * 2 ^ (-149 : ℤ) := by
  have hcoefficient : (exact.coefficient : ℚ) < 10 ^ (Nat.log 10 exact.coefficient + 1) := by
    exact_mod_cast Nat.lt_pow_succ_log_self (by norm_num) exact.coefficient
  have hpow : (0 : ℚ) < 10 ^ exact.exponent := by positivity
  unfold adjusted at h
  unfold magnitude
  calc (exact.coefficient : ℚ) * 10 ^ exact.exponent
      ≤ 10 ^ (Nat.log 10 exact.coefficient + 1) * 10 ^ exact.exponent :=
        mul_le_mul_of_nonneg_right hcoefficient.le hpow.le
    _ = 10 ^ ((Nat.log 10 exact.coefficient + 1 : ℕ) + exact.exponent) := by
        rw [zpow_add₀ (by norm_num), zpow_natCast]
    _ ≤ 10 ^ (-38 : ℤ) := zpow_le_zpow_right₀ (by norm_num) (by push_cast; omega)
    _ ≤ (2 ^ 23 - 1) * 2 ^ (-149 : ℤ) := by norm_num

theorem le_magnitude_of_adjusted (hne : exact.coefficient ≠ 0) (h : exact.adjusted > 38) :
    2 ^ (128 : ℤ) ≤ exact.magnitude := by
  have hcoefficient : (10 : ℚ) ^ Nat.log 10 exact.coefficient ≤ exact.coefficient := by
    exact_mod_cast Nat.pow_log_le_self 10 hne
  have hpow : (0 : ℚ) < 10 ^ exact.exponent := by positivity
  unfold adjusted at h
  unfold magnitude
  calc (2 : ℚ) ^ (128 : ℤ) ≤ 10 ^ (39 : ℤ) := by norm_num
    _ ≤ 10 ^ ((Nat.log 10 exact.coefficient : ℤ) + exact.exponent) :=
        zpow_le_zpow_right₀ (by norm_num) (by omega)
    _ = 10 ^ Nat.log 10 exact.coefficient * 10 ^ exact.exponent := by
        rw [zpow_add₀ (by norm_num), zpow_natCast]
    _ ≤ exact.coefficient * 10 ^ exact.exponent :=
        mul_le_mul_of_nonneg_right hcoefficient hpow.le

@[simp] theorem copyAbs_value (exact : Decimal) : exact.copyAbs.value = exact.magnitude := rfl

@[simp] theorem copyAbs_adjusted (exact : Decimal) : exact.copyAbs.adjusted = exact.adjusted := rfl

theorem asIntegerRatio_pos (hne : exact.coefficient ≠ 0) :
    0 < exact.copyAbs.asIntegerRatio.1.toNat ∧ 0 < exact.copyAbs.asIntegerRatio.2 := by
  have hnum : 0 < exact.magnitude.num := Rat.num_pos.mpr (magnitude_pos hne)
  refine ⟨?_, exact.magnitude.den_pos⟩
  show 0 < exact.magnitude.num.toNat
  omega

theorem asIntegerRatio_div (hne : exact.coefficient ≠ 0) :
    (exact.copyAbs.asIntegerRatio.1.toNat : ℚ) / exact.copyAbs.asIntegerRatio.2 =
      exact.magnitude := by
  have hnum : 0 < exact.magnitude.num := Rat.num_pos.mpr (magnitude_pos hne)
  show (exact.magnitude.num.toNat : ℚ) / exact.magnitude.den = exact.magnitude
  have hcast : (exact.magnitude.num.toNat : ℚ) = exact.magnitude.num := by
    exact_mod_cast Int.toNat_of_nonneg hnum.le
  rw [hcast, Rat.num_div_den]

end Decimal

section Conversion

variable {repr : String → String} {exact : Decimal} {value label : String} {y : ℚ}

theorem protobufF32_of_adjusted (hne : exact.coefficient ≠ 0)
    (h : exact.adjusted < -38 ∨ exact.adjusted > 38) :
    protobufF32 repr exact value label = .error (invalidFloatingDefault repr value label) := by
  have hzero : exact.isZero = false := by simpa [Decimal.isZero] using hne
  unfold protobufF32
  simp only [hzero, Decimal.copyAbs_adjusted, if_pos h]
  rfl

/-- Beyond the first check the two exponents and the significand are the ones of the exact
magnitude. -/
theorem protobufF32_of_ratio (hne : exact.coefficient ≠ 0)
    (h : ¬(exact.adjusted < -38 ∨ exact.adjusted > 38)) {small normal : ℕ}
    (hsmall : (small : ℤ) = roundEven (exact.magnitude * 2 ^ (149 : ℤ)))
    (hnormal : (normal : ℤ) = roundEven (exact.magnitude * 2 ^ (23 - Int.log 2 exact.magnitude))) :
    protobufF32 repr exact value label =
      if Int.log 2 exact.magnitude < -126 then
        if small < 2 ^ 23 then .error (invalidFloatingDefault repr value label)
        else assembleF32 (if exact.signed then 0x80000000 else 0) (-126) small
      else if Int.log 2 exact.magnitude > 127 then
        .error (invalidFloatingDefault repr value label)
      else if normal = 2 ^ 24 then
        if Int.log 2 exact.magnitude + 1 > 127 then
          .error (invalidFloatingDefault repr value label)
        else assembleF32 (if exact.signed then 0x80000000 else 0)
          (Int.log 2 exact.magnitude + 1) (normal >>> 1)
      else assembleF32 (if exact.signed then 0x80000000 else 0)
        (Int.log 2 exact.magnitude) normal := by
  obtain ⟨hnum, hden⟩ := Decimal.asIntegerRatio_pos hne
  have hzero : exact.isZero = false := by simpa [Decimal.isZero] using hne
  have hround : ∀ shift : ℤ, (roundRatioToInteger exact.copyAbs.asIntegerRatio.1.toNat
      exact.copyAbs.asIntegerRatio.2 shift : ℤ) = roundEven (exact.magnitude * 2 ^ shift) := by
    intro shift
    rw [roundRatioToInteger_eq hden, Decimal.asIntegerRatio_div hne]
  have hsmall' := Int.ofNat_inj.mp (hsmall.trans (hround 149).symm)
  have hnormal' := Int.ofNat_inj.mp (hnormal.trans (hround _).symm)
  unfold protobufF32
  simp only [hzero, Decimal.copyAbs_adjusted, if_neg h, rationalFloorLog2_eq hnum hden,
    Decimal.asIntegerRatio_div hne, ← hsmall', ← hnormal']
  rfl

/-- The call meets its specification for the rounded magnitude `y`. -/
def Rounded (repr : String → String) (exact : Decimal) (value label : String) (y : ℚ) : Prop :=
  if 2 ^ (-126 : ℤ) ≤ y ∧ y < 2 ^ (128 : ℤ) then
    ∃ x, protobufF32 repr exact value label = .ok x ∧
      x.toRat = some (if exact.signed then -y else y)
  else protobufF32 repr exact value label = .error (invalidFloatingDefault repr value label)

theorem exists_roundEven (hne : exact.coefficient ≠ 0) (shift : ℤ) : ∃ significand : ℕ,
    (significand : ℤ) = roundEven (exact.magnitude * 2 ^ shift) :=
  exists_roundEven_nat (mul_pos (Decimal.magnitude_pos hne) (FloatFormat.two_zpow_pos shift)).le

theorem rounded_of_adjusted (hne : exact.coefficient ≠ 0)
    (h : exact.adjusted < -38 ∨ exact.adjusted > 38)
    (hy : binary32.RoundsTo exact.magnitude y) : Rounded repr exact value label y := by
  have hout : ¬(2 ^ (-126 : ℤ) ≤ y ∧ y < 2 ^ (128 : ℤ)) := by
    rintro ⟨hlow, hhigh⟩
    rcases h with h | h
    · have hle := hy.le_of_le representable_largestSubnormal (Decimal.magnitude_le_of_adjusted h)
      have hlt : ((2 : ℚ) ^ 23 - 1) * 2 ^ (-149 : ℤ) < 2 ^ (-126 : ℤ) := by norm_num
      linarith
    · have hle := hy.le_of_ge representable_overflow (Decimal.le_magnitude_of_adjusted hne h)
      linarith
  unfold Rounded
  rw [if_neg hout]
  exact protobufF32_of_adjusted hne h

/-- The magnitudes below the normal ones round to a normal one only through the last step of the
subnormal grid. -/
theorem rounded_of_small (hne : exact.coefficient ≠ 0)
    (h : ¬(exact.adjusted < -38 ∨ exact.adjusted > 38)) (hlog : Int.log 2 exact.magnitude < -126) :
    Rounded repr exact value label (binary32.nearest exact.magnitude) := by
  have hpos := Decimal.magnitude_pos hne
  have hnearest := nearest_of_small hlog
  obtain ⟨small, hsmall⟩ := exists_roundEven hne 149
  obtain ⟨normal, hnormal⟩ := exists_roundEven hne (23 - Int.log 2 exact.magnitude)
  rw [← hsmall, Int.cast_natCast] at hnearest
  have hle : binary32.nearest exact.magnitude ≤ 2 ^ (-126 : ℤ) := by
    have hlt : exact.magnitude < 2 ^ (-126 : ℤ) := by
      apply (FloatFormat.lt_zpow_succ exact.magnitude).trans_le
      exact zpow_le_zpow_right₀ (by norm_num) (by omega)
    exact (FloatFormat.roundsTo_nearest hpos).le_of_le representable_smallestNormal hlt.le
  unfold Rounded
  rw [protobufF32_of_ratio hne h hsmall hnormal, if_pos hlog]
  rcases lt_or_ge small (2 ^ 23) with hlt | hge
  · have hlt' : binary32.nearest exact.magnitude < 2 ^ (-126 : ℤ) := by
      rw [hnearest]
      have hcast : (small : ℚ) < 2 ^ 23 := by exact_mod_cast hlt
      calc (small : ℚ) * 2 ^ (-149 : ℤ) < 2 ^ 23 * 2 ^ (-149 : ℤ) :=
            mul_lt_mul_of_pos_right hcast (FloatFormat.two_zpow_pos _)
        _ = 2 ^ (-126 : ℤ) := by norm_num
    rw [if_neg (fun hin => not_lt.mpr hin.1 hlt'), if_pos hlt]
  · have heq : small = 2 ^ 23 := by
      rw [hnearest] at hle
      have hle' : (small : ℚ) * 2 ^ (-149 : ℤ) ≤ 2 ^ 23 * 2 ^ (-149 : ℤ) := by
        norm_num at hle ⊢
        exact hle
      have hcast : (small : ℚ) ≤ 2 ^ 23 :=
        le_of_mul_le_mul_right hle' (FloatFormat.two_zpow_pos _)
      exact le_antisymm (by exact_mod_cast hcast) hge
    obtain ⟨x, hx, hvalue⟩ := assembleF32_eq exact.signed (-126) small (by norm_num)
      (by norm_num) hge (by omega)
    have hvalue' : binary32.nearest exact.magnitude = 2 ^ (-126 : ℤ) := by
      rw [hnearest, heq]
      norm_num
    rw [if_pos ⟨hvalue'.ge, by rw [hvalue']; norm_num⟩, if_neg (not_lt.mpr hge)]
    refine ⟨x, hx, ?_⟩
    rw [hvalue, hnearest]
    norm_num

theorem rounded_of_normal (hne : exact.coefficient ≠ 0)
    (h : ¬(exact.adjusted < -38 ∨ exact.adjusted > 38))
    (hlog : -126 ≤ Int.log 2 exact.magnitude) :
    Rounded repr exact value label (binary32.nearest exact.magnitude) := by
  have hpos := Decimal.magnitude_pos hne
  obtain ⟨small, hsmall⟩ := exists_roundEven hne 149
  obtain ⟨normal, hnormal⟩ := exists_roundEven hne (23 - Int.log 2 exact.magnitude)
  obtain ⟨hnearest, hfull, hle⟩ := nearest_of_normal hpos hlog
  rw [← hnormal] at hnearest hfull hle
  rw [Int.cast_natCast] at hnearest
  have hfull' : 2 ^ 23 ≤ normal := by exact_mod_cast hfull
  have hle' : normal ≤ 2 ^ 24 := by exact_mod_cast hle
  unfold Rounded
  rw [protobufF32_of_ratio hne h hsmall hnormal, if_neg (not_lt.mpr hlog)]
  have hlow : (2 : ℚ) ^ Int.log 2 exact.magnitude ≤ binary32.nearest exact.magnitude := by
    have hcast : (2 : ℚ) ^ (23 : ℤ) ≤ normal := by exact_mod_cast hfull'
    rw [hnearest]
    calc (2 : ℚ) ^ Int.log 2 exact.magnitude
        = 2 ^ (23 : ℤ) * 2 ^ (Int.log 2 exact.magnitude - 23) := by
          rw [← zpow_add₀ (by norm_num), add_sub_cancel]
      _ ≤ normal * 2 ^ (Int.log 2 exact.magnitude - 23) :=
          mul_le_mul_of_nonneg_right hcast (FloatFormat.two_zpow_pos _).le
  have hsmallest : (2 : ℚ) ^ (-126 : ℤ) ≤ binary32.nearest exact.magnitude :=
    (zpow_le_zpow_right₀ (by norm_num) hlog).trans hlow
  by_cases hover : Int.log 2 exact.magnitude > 127
  · have hlarge : (2 : ℚ) ^ (128 : ℤ) ≤ binary32.nearest exact.magnitude :=
      (zpow_le_zpow_right₀ (by norm_num) (by omega)).trans hlow
    rw [if_neg (fun hin => not_lt.mpr hlarge hin.2), if_pos hover]
  rw [if_neg hover]
  by_cases hcarry : normal = 2 ^ 24
  · have hvalue : binary32.nearest exact.magnitude = 2 ^ (Int.log 2 exact.magnitude + 1) := by
      rw [hnearest, hcarry, two_pow_mul_zpow]
      congr 1
      omega
    rw [if_pos hcarry]
    by_cases hover' : Int.log 2 exact.magnitude + 1 > 127
    · have hlarge : (2 : ℚ) ^ (128 : ℤ) ≤ binary32.nearest exact.magnitude := by
        rw [hvalue]
        exact zpow_le_zpow_right₀ (by norm_num) (by omega)
      rw [if_neg (fun hin => not_lt.mpr hlarge hin.2), if_pos hover']
    · have hhigh : binary32.nearest exact.magnitude < 2 ^ (128 : ℤ) := by
        rw [hvalue]
        exact zpow_lt_zpow_right₀ (by norm_num) (by omega)
      rw [if_pos ⟨hsmallest, hhigh⟩, if_neg hover']
      have hhalf : normal >>> 1 = 2 ^ 23 := by
        rw [hcarry]
        rfl
      obtain ⟨x, hx, hbits⟩ := assembleF32_eq exact.signed
        (Int.log 2 exact.magnitude + 1) (2 ^ 23) (by omega) (by omega) le_rfl (by norm_num)
      rw [hhalf]
      refine ⟨x, hx, ?_⟩
      have hpower : ((2 ^ 23 : ℕ) : ℚ) * 2 ^ (Int.log 2 exact.magnitude + 1 - 23) =
          2 ^ (Int.log 2 exact.magnitude + 1) := by
        rw [two_pow_mul_zpow]
        congr 1
        omega
      rw [hbits, hvalue, hpower]
  · have hlt : normal < 2 ^ 24 := lt_of_le_of_ne hle' hcarry
    have hhigh : binary32.nearest exact.magnitude < 2 ^ (128 : ℤ) := by
      have hcast : (normal : ℚ) < 2 ^ (24 : ℤ) := by exact_mod_cast hlt
      rw [hnearest]
      calc (normal : ℚ) * 2 ^ (Int.log 2 exact.magnitude - 23)
          < 2 ^ (24 : ℤ) * 2 ^ (Int.log 2 exact.magnitude - 23) :=
            mul_lt_mul_of_pos_right hcast (FloatFormat.two_zpow_pos _)
        _ = 2 ^ (24 + (Int.log 2 exact.magnitude - 23)) := (zpow_add₀ (by norm_num) _ _).symm
        _ ≤ 2 ^ (128 : ℤ) := zpow_le_zpow_right₀ (by norm_num) (by omega)
    rw [if_pos ⟨hsmallest, hhigh⟩, if_neg hcarry]
    obtain ⟨x, hx, hbits⟩ := assembleF32_eq exact.signed _ _ hlog (by omega) hfull' hlt
    exact ⟨x, hx, by rw [hbits, hnearest]⟩

/-- The conversion returns the nearest binary32 value, with ties to even, exactly when that value
is normal. -/
theorem protobufF32_rounds (repr : String → String) (exact : Decimal) (value label : String)
    (hne : exact.coefficient ≠ 0) :
    (∃ y, binary32.RoundsTo |exact.value| y) ∧
      ∀ y, binary32.RoundsTo |exact.value| y →
        if 2 ^ (-126 : ℤ) ≤ y ∧ y < 2 ^ (128 : ℤ) then
          ∃ x, protobufF32 repr exact value label = .ok x ∧
            x.toRat = some (if exact.signed then -y else y)
        else protobufF32 repr exact value label =
          .error (invalidFloatingDefault repr value label) := by
  have hnearest := FloatFormat.roundsTo_nearest (F := binary32) (Decimal.magnitude_pos hne)
  rw [Decimal.abs_value]
  refine ⟨⟨_, hnearest⟩, ?_⟩
  intro y hy
  show Rounded repr exact value label y
  by_cases hadjusted : exact.adjusted < -38 ∨ exact.adjusted > 38
  · exact rounded_of_adjusted hne hadjusted hy
  · rw [hy.unique hnearest]
    rcases lt_or_ge (Int.log 2 exact.magnitude) (-126) with hlog | hlog
    · exact rounded_of_small hne hadjusted hlog
    · exact rounded_of_normal hne hadjusted hlog

theorem protobufF32_rounds_tenth :
    (∃ y, binary32.RoundsTo |(⟨true, 1, -1⟩ : Decimal).value| y) ∧
      ∀ y, binary32.RoundsTo |(⟨true, 1, -1⟩ : Decimal).value| y →
        if 2 ^ (-126 : ℤ) ≤ y ∧ y < 2 ^ (128 : ℤ) then
          ∃ x, protobufF32 id ⟨true, 1, -1⟩ "-0.1" "field" = .ok x ∧ x.toRat = some (-y)
        else protobufF32 id ⟨true, 1, -1⟩ "-0.1" "field" =
          .error (invalidFloatingDefault id "-0.1" "field") :=
  protobufF32_rounds id ⟨true, 1, -1⟩ "-0.1" "field" one_ne_zero

example : (protobufF32 id ⟨true, 1, -1⟩ "-0.1" "field").toOption.map F32.bits = some 0xBDCCCCCD := by
  decide +kernel

end Conversion

end Protocyte.Constants
