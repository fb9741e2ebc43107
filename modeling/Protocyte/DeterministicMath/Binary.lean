import Protocyte.Constants.FloatDefault
import Protocyte.Foundation.BinaryInterchange

/-! The conversion of an exact ratio to the bits of a binary32 or binary64 value, and the separate
assembly of the powers of two. -/
namespace Protocyte.DeterministicMath

open Foundation InterchangeFormat Constants

inductive DeterministicMathError where
  | domainError
  | nonFiniteError
deriving DecidableEq, Repr

/-- The widths that have a binary format. -/
inductive Width where
  | w32
  | w64
deriving DecidableEq, Repr

namespace Width

def bits : Width → ℕ
  | w32 => 32
  | w64 => 64

theorem one_lt_eight : 1 < 8 := by norm_num

theorem one_lt_eleven : 1 < 11 := by norm_num

theorem twentyThree_pos : 0 < 23 := by norm_num

theorem fiftyTwo_pos : 0 < 52 := by norm_num

def format : Width → InterchangeFormat
  | w32 => ⟨8, 23, one_lt_eight, twentyThree_pos⟩
  | w64 => ⟨11, 52, one_lt_eleven, fiftyTwo_pos⟩

end Width

structure BinaryFormat where
  precision : ℕ
  minExponent : ℤ
  maxExponent : ℤ
  bias : ℤ
  exponentBits : ℕ
  fractionBits : ℕ
deriving DecidableEq, Repr

def binaryFormats : Width → BinaryFormat
  | .w32 => ⟨24, -126, 127, 127, 8, 23⟩
  | .w64 => ⟨53, -1022, 1023, 1023, 11, 52⟩

def roundScaledRatio (numerator denominator : ℕ) (shift : ℤ) : ℕ :=
  let numerator' := if 0 ≤ shift then numerator <<< shift.toNat else numerator
  let denominator' := if 0 ≤ shift then denominator else denominator <<< (-shift).toNat
  let quotient := numerator' / denominator'
  let doubledRemainder := (numerator' % denominator') <<< 1
  if denominator' < doubledRemainder ∨
      (doubledRemainder = denominator' ∧ quotient &&& 1 = 1) then
    quotient + 1
  else quotient

/-- The exponent of the leading bit of the ratio. -/
def ratioExponent (numerator denominator : ℕ) : ℤ :=
  let exponent : ℤ := bitLength numerator - bitLength denominator
  if 0 ≤ exponent then
    if numerator < denominator <<< exponent.toNat then exponent - 1 else exponent
  else if numerator <<< (-exponent).toNat < denominator then exponent - 1
  else exponent

def ratioToBinaryBits (numerator denominator : ℕ) (negative : Bool) (width : Width) : ℕ :=
  let format := binaryFormats width
  let signBits := negative.toNat <<< (width.bits - 1)
  if numerator = 0 then signBits
  else
    let exponent := ratioExponent numerator denominator
    if exponent < format.minExponent then
      let significand := roundScaledRatio numerator denominator
        ((format.precision - 1 : ℤ) - format.minExponent)
      if significand = 0 then signBits
      else
        let exponentField := if significand < 1 <<< (format.precision - 1) then 0 else 1
        let fraction := if significand < 1 <<< (format.precision - 1) then significand else 0
        signBits ||| exponentField <<< format.fractionBits ||| fraction
    else
      let rounded := roundScaledRatio numerator denominator ((format.precision - 1 : ℤ) - exponent)
      let significand := if rounded = 1 <<< format.precision then rounded >>> 1 else rounded
      let exponent := if rounded = 1 <<< format.precision then exponent + 1 else exponent
      if exponent > format.maxExponent then
        signBits ||| ((1 <<< format.exponentBits) - 1) <<< format.fractionBits
      else
        -- neither difference is negative: the exponent is a normal one, the significand is full
        let exponentField := (exponent + format.bias).toNat
        let fraction := significand - 1 <<< (format.precision - 1)
        signBits ||| exponentField <<< format.fractionBits ||| fraction

/-- A float is known by its value. -/
def binaryFloatFromBits (bits : ℕ) (width : Width) : BinaryValue := width.format.decode bits

def finiteBinaryFloatFromBits (bits : ℕ) (width : Width) :
    Except DeterministicMathError BinaryValue :=
  let format := binaryFormats width
  let exponentMask := ((1 <<< format.exponentBits) - 1) <<< format.fractionBits
  if bits &&& exponentMask = exponentMask then .error .nonFiniteError
  else .ok (binaryFloatFromBits bits width)

def roundRatio (numerator denominator : ℕ) (negative : Bool) (width : Width) :
    Except DeterministicMathError BinaryValue :=
  finiteBinaryFloatFromBits (ratioToBinaryBits numerator denominator negative width) width

def binaryPowerOfTwo (exponent : ℤ) (negative : Bool) (width : Width) :
    Except DeterministicMathError BinaryValue :=
  let format := binaryFormats width
  if exponent > format.maxExponent then .error .nonFiniteError
  else
    let signBits := negative.toNat <<< (width.bits - 1)
    let bits :=
      if exponent ≥ format.minExponent then
        signBits ||| (exponent + format.bias).toNat <<< format.fractionBits
      else
        let minSubnormalExponent := format.minExponent - (format.precision - 1 : ℤ)
        if exponent ≥ minSubnormalExponent then
          signBits ||| 1 <<< (exponent - minSubnormalExponent).toNat
        else signBits
    .ok (binaryFloatFromBits bits width)

section Formats

variable (width : Width)

/-- The table has the numbers of the interchange formats. -/
theorem binaryFormats_eq : binaryFormats width =
    ⟨width.format.fractionBits + 1, 1 - width.format.bias, width.format.bias, width.format.bias,
      width.format.exponentBits, width.format.fractionBits⟩ := by
  cases width <;> rfl

theorem bits_sub_one :
    width.bits - 1 = width.format.exponentBits + width.format.fractionBits := by
  cases width <;> rfl

theorem format_width : width.format.width = width.bits := by
  cases width <;> rfl

end Formats

section Ratios

variable {numerator denominator : ℕ} {negative : Bool} {width : Width}

theorem roundScaledRatio_eq (hd : 0 < denominator) (shift : ℤ) :
    (roundScaledRatio numerator denominator shift : ℤ) =
      roundEven ((numerator : ℚ) / denominator * 2 ^ shift) :=
  roundRatioToInteger_eq hd shift

theorem ratioExponent_eq (hn : 0 < numerator) (hd : 0 < denominator) :
    ratioExponent numerator denominator = Int.log 2 ((numerator : ℚ) / denominator) :=
  rationalFloorLog2_eq hn hd

theorem signBits_eq (negative : Bool) (width : Width) :
    negative.toNat <<< (width.bits - 1) = width.format.pack negative 0 0 := by
  rw [bits_sub_one, ← lor_fields negative (Nat.two_pow_pos _) (Nat.two_pow_pos _), Nat.zero_shiftLeft,
    Nat.or_zero, Nat.or_zero]

theorem ratioToBinaryBits_zero (denominator : ℕ) (negative : Bool) (width : Width) :
    ratioToBinaryBits 0 denominator negative width = width.format.pack negative 0 0 := by
  unfold ratioToBinaryBits
  rw [if_pos rfl]
  exact signBits_eq negative width

/-- The three ranges of the conversion, in the fields of the format. -/
theorem ratioToBinaryBits_of_pos (hn : 0 < numerator) (hd : 0 < denominator) {small normal : ℕ}
    {e : ℤ} (hlog : Int.log 2 ((numerator : ℚ) / denominator) = e)
    (hsmall : (small : ℤ) = roundEven ((numerator : ℚ) / denominator *
      2 ^ ((width.format.fractionBits : ℤ) - (1 - width.format.bias))))
    (hnormal : (normal : ℤ) = roundEven ((numerator : ℚ) / denominator *
      2 ^ ((width.format.fractionBits : ℤ) - e))) :
    ratioToBinaryBits numerator denominator negative width =
      if e < 1 - width.format.bias then
        if small = 0 then negative.toNat <<< (width.bits - 1)
        else negative.toNat <<< (width.bits - 1) |||
          (if small < 2 ^ width.format.fractionBits then 0 else 1) <<< width.format.fractionBits |||
          if small < 2 ^ width.format.fractionBits then small else 0
      else if (if normal = 2 ^ (width.format.fractionBits + 1) then e + 1 else e) >
          width.format.bias then
        negative.toNat <<< (width.bits - 1) |||
          width.format.topField <<< width.format.fractionBits
      else negative.toNat <<< (width.bits - 1) |||
        ((if normal = 2 ^ (width.format.fractionBits + 1) then e + 1 else e) +
          width.format.bias).toNat <<< width.format.fractionBits |||
        (if normal = 2 ^ (width.format.fractionBits + 1) then normal >>> 1 else normal) -
          2 ^ width.format.fractionBits := by
  have hround : ∀ shift : ℤ, ∀ value : ℕ,
      (value : ℤ) = roundEven ((numerator : ℚ) / denominator * 2 ^ shift) →
      roundScaledRatio numerator denominator shift = value := by
    intro shift value hvalue
    exact Int.ofNat_inj.mp ((roundScaledRatio_eq hd shift).trans hvalue.symm)
  have hprecision : ((width.format.fractionBits + 1 : ℕ) : ℤ) - 1 = width.format.fractionBits := by
    push_cast
    omega
  unfold ratioToBinaryBits
  rw [if_neg hn.ne', binaryFormats_eq]
  simp only [ratioExponent_eq hn hd, hlog, hprecision, hround _ small hsmall,
    hround _ normal hnormal, Nat.one_shiftLeft, Nat.add_sub_cancel]
  rfl

/-- The bits are those of the rounded ratio. -/
def Encodes (width : Width) (negative : Bool) (x : ℚ) (bits : ℕ) : Prop :=
  bits < 2 ^ width.bits ∧ ∃ y, width.format.magnitudes.RoundsTo x y ∧
    width.format.decode bits = width.format.ofMagnitude negative y

theorem encodes_pack {field fraction : ℕ} {x y : ℚ}
    (hfield : field < 2 ^ width.format.exponentBits)
    (hfraction : fraction < 2 ^ width.format.fractionBits)
    (hy : width.format.magnitudes.RoundsTo x y)
    (hdecode : width.format.decode (width.format.pack negative field fraction) =
      width.format.ofMagnitude negative y) :
    Encodes width negative x (width.format.pack negative field fraction) := by
  refine ⟨?_, y, hy, hdecode⟩
  rw [← format_width]
  exact pack_lt negative hfield hfraction

theorem lt_topField {field : ℕ} (h : (field : ℤ) ≤ 2 * width.format.bias) :
    field < 2 ^ width.format.exponentBits := by
  have htop := topField_eq width.format
  have hlt := width.format.topField_lt
  omega

theorem encodes_of_small (hn : 0 < numerator) (hd : 0 < denominator)
    (h : Int.log 2 ((numerator : ℚ) / denominator) < 1 - width.format.bias) :
    Encodes width negative ((numerator : ℚ) / denominator)
      (ratioToBinaryBits numerator denominator negative width) := by
  have hx : (0 : ℚ) < numerator / denominator := by positivity
  have hbias := bias_pos width.format
  have hpow := Nat.two_pow_pos width.format.fractionBits
  obtain ⟨small, hsmall⟩ := exists_roundEven_nat (mul_pos hx
    (FloatFormat.two_zpow_pos ((width.format.fractionBits : ℤ) - (1 - width.format.bias)))).le
  obtain ⟨normal, hnormal⟩ := exists_roundEven_nat (mul_pos hx
    (FloatFormat.two_zpow_pos ((width.format.fractionBits : ℤ) -
      Int.log 2 ((numerator : ℚ) / denominator)))).le
  obtain ⟨hnearest, hle⟩ := nearest_subnormal h hsmall
  have hfield : (if small < 2 ^ width.format.fractionBits then 0 else 1) <
      2 ^ width.format.exponentBits := by
    apply lt_topField
    split_ifs <;> push_cast <;> omega
  have hfraction : (if small < 2 ^ width.format.fractionBits then small else 0) <
      2 ^ width.format.fractionBits := by
    split_ifs with hlt
    · exact hlt
    · exact hpow
  have hbits : ratioToBinaryBits numerator denominator negative width =
      width.format.pack negative (if small < 2 ^ width.format.fractionBits then 0 else 1)
        (if small < 2 ^ width.format.fractionBits then small else 0) := by
    rw [ratioToBinaryBits_of_pos hn hd rfl hsmall hnormal, if_pos h]
    by_cases hzero : small = 0
    · rw [if_pos hzero, hzero, if_pos hpow, if_pos hpow]
      exact signBits_eq negative width
    · rw [if_neg hzero, bits_sub_one]
      exact InterchangeFormat.lor_fields negative hfield hfraction
  rw [hbits]
  apply encodes_pack hfield hfraction (FloatFormat.roundsTo_nearest hx)
  have hbound : width.format.magnitudes.nearest (numerator / denominator) <
      2 ^ (width.format.bias + 1) := by
    rw [hnearest]
    calc (small : ℚ) * 2 ^ (1 - width.format.bias - width.format.fractionBits)
        ≤ (2 ^ width.format.fractionBits : ℕ) *
            2 ^ (1 - width.format.bias - width.format.fractionBits) :=
          mul_le_mul_of_nonneg_right (by exact_mod_cast hle) (FloatFormat.two_zpow_pos _).le
      _ = 2 ^ (1 - width.format.bias) := by
          rw [two_pow_mul_zpow, add_sub_cancel]
      _ < 2 ^ (width.format.bias + 1) := zpow_lt_zpow_right₀ (by norm_num) (by omega)
  unfold ofMagnitude
  rw [decode_subnormal negative hle, if_pos hbound, hnearest]

theorem encodes_of_normal (hn : 0 < numerator) (hd : 0 < denominator)
    (h : 1 - width.format.bias ≤ Int.log 2 ((numerator : ℚ) / denominator)) :
    Encodes width negative ((numerator : ℚ) / denominator)
      (ratioToBinaryBits numerator denominator negative width) := by
  have hx : (0 : ℚ) < numerator / denominator := by positivity
  have hbias := bias_pos width.format
  have hpow := Nat.two_pow_pos width.format.fractionBits
  have hsucc : 2 ^ (width.format.fractionBits + 1) = 2 * 2 ^ width.format.fractionBits := pow_succ' ..
  obtain ⟨small, hsmall⟩ := exists_roundEven_nat (mul_pos hx
    (FloatFormat.two_zpow_pos ((width.format.fractionBits : ℤ) - (1 - width.format.bias)))).le
  obtain ⟨normal, hnormal⟩ := exists_roundEven_nat (mul_pos hx
    (FloatFormat.two_zpow_pos ((width.format.fractionBits : ℤ) -
      Int.log 2 ((numerator : ℚ) / denominator)))).le
  obtain ⟨hnearest, hfull, hle⟩ := nearest_normal hx h hnormal
  have hrounds := FloatFormat.roundsTo_nearest (F := width.format.magnitudes) hx
  rw [ratioToBinaryBits_of_pos hn hd rfl hsmall hnormal, if_neg (not_lt.mpr h)]
  -- after a carry the significand is the power of two and the exponent the next one
  obtain ⟨e, significand, he, hsignificand, hlow, hfull', hlt, hvalue⟩ :
      ∃ (e : ℤ) (significand : ℕ),
        (if normal = 2 ^ (width.format.fractionBits + 1) then
            Int.log 2 ((numerator : ℚ) / denominator) + 1
          else Int.log 2 ((numerator : ℚ) / denominator)) = e ∧
        (if normal = 2 ^ (width.format.fractionBits + 1) then normal >>> 1 else normal) =
          significand ∧
        1 - width.format.bias ≤ e ∧ 2 ^ width.format.fractionBits ≤ significand ∧
        significand < 2 ^ (width.format.fractionBits + 1) ∧
        width.format.magnitudes.nearest (numerator / denominator) =
          significand * 2 ^ (e - width.format.fractionBits) := by
    by_cases hcarry : normal = 2 ^ (width.format.fractionBits + 1)
    · refine ⟨_, 2 ^ width.format.fractionBits, if_pos hcarry, ?_, by omega, le_rfl, by omega, ?_⟩
      · rw [if_pos hcarry, hcarry, Nat.shiftRight_one, hsucc]
        omega
      · rw [hnearest, hcarry, two_pow_mul_zpow, two_pow_mul_zpow]
        congr 1
        push_cast
        omega
    · exact ⟨_, normal, if_neg hcarry, if_neg hcarry, h, hfull, by omega, hnearest⟩
  rw [he, hsignificand]
  by_cases hover : e > width.format.bias
  · have hlarge : (2 : ℚ) ^ (width.format.bias + 1) ≤
        width.format.magnitudes.nearest (numerator / denominator) := by
      rw [hvalue]
      calc (2 : ℚ) ^ (width.format.bias + 1) ≤ 2 ^ e :=
            zpow_le_zpow_right₀ (by norm_num) (by omega)
        _ = (2 ^ width.format.fractionBits : ℕ) * 2 ^ (e - width.format.fractionBits) := by
            rw [two_pow_mul_zpow, add_sub_cancel]
        _ ≤ significand * 2 ^ (e - width.format.fractionBits) :=
            mul_le_mul_of_nonneg_right (by exact_mod_cast hfull') (FloatFormat.two_zpow_pos _).le
    have hfields := InterchangeFormat.lor_fields negative width.format.topField_lt hpow
    rw [if_pos hover, bits_sub_one, ← Nat.or_zero (_ ||| _), hfields]
    apply encodes_pack width.format.topField_lt hpow hrounds
    unfold ofMagnitude
    rw [decode_infinite, if_neg (not_lt.mpr hlarge)]
  · have hsmaller : width.format.magnitudes.nearest (numerator / denominator) <
        2 ^ (width.format.bias + 1) := by
      rw [hvalue]
      calc (significand : ℚ) * 2 ^ (e - width.format.fractionBits)
          < (2 ^ (width.format.fractionBits + 1) : ℕ) * 2 ^ (e - width.format.fractionBits) :=
            mul_lt_mul_of_pos_right (by exact_mod_cast hlt) (FloatFormat.two_zpow_pos _)
        _ = 2 ^ (e + 1) := by
            rw [two_pow_mul_zpow]
            congr 1
            push_cast
            omega
        _ ≤ 2 ^ (width.format.bias + 1) := zpow_le_zpow_right₀ (by norm_num) (by omega)
    have hfield : (e + width.format.bias).toNat < 2 ^ width.format.exponentBits :=
      lt_topField (by omega)
    have hfraction : significand - 2 ^ width.format.fractionBits <
        2 ^ width.format.fractionBits := by omega
    rw [if_neg hover, bits_sub_one, InterchangeFormat.lor_fields negative hfield hfraction]
    apply encodes_pack hfield hfraction hrounds
    unfold ofMagnitude
    rw [decode_normal hlow (by omega) hfull' hlt, if_pos hsmaller, hvalue]

/-- The conversion is correctly rounded for every ratio. -/
theorem ratioToBinaryBits_encodes (numerator : ℕ) (hd : 0 < denominator) (negative : Bool)
    (width : Width) : Encodes width negative ((numerator : ℚ) / denominator)
      (ratioToBinaryBits numerator denominator negative width) := by
  rcases Nat.eq_zero_or_pos numerator with hzero | hn
  · have hbias := bias_pos width.format
    rw [hzero, ratioToBinaryBits_zero, Nat.cast_zero, zero_div]
    apply encodes_pack (Nat.two_pow_pos _) (Nat.two_pow_pos _)
      (FloatFormat.representable_zero _).roundsTo
    have hdecode := decode_subnormal (F := width.format) negative (Nat.zero_le _)
    rw [if_pos (Nat.two_pow_pos _), if_pos (Nat.two_pow_pos _), Nat.cast_zero, zero_mul] at hdecode
    unfold ofMagnitude
    rw [hdecode, if_pos (FloatFormat.two_zpow_pos _)]
  · rcases lt_or_ge (Int.log 2 ((numerator : ℚ) / denominator)) (1 - width.format.bias) with h | h
    · exact encodes_of_small hn hd h
    · exact encodes_of_normal hn hd h

end Ratios

section Results

variable {negative : Bool} {width : Width} {bits : ℕ} {x : ℚ} {e : ℤ}

theorem and_exponentMask (bits : ℕ) (F : InterchangeFormat) :
    bits &&& F.topField <<< F.fractionBits =
      (bits / 2 ^ F.fractionBits % 2 ^ F.exponentBits) <<< F.fractionBits := by
  apply Nat.eq_of_testBit_eq
  intro i
  unfold topField
  rw [Nat.testBit_and, Nat.testBit_shiftLeft, Nat.testBit_shiftLeft, Nat.testBit_two_pow_sub_one,
    Nat.testBit_mod_two_pow, Nat.testBit_div_two_pow]
  rcases lt_or_ge i F.fractionBits with hlt | hge
  · rw [decide_eq_false (not_le.mpr hlt), Bool.false_and, Bool.false_and, Bool.and_false]
  · rw [Nat.sub_add_cancel hge, decide_eq_true hge, Bool.true_and, Bool.true_and, Bool.and_comm]

/-- The mask finds the patterns that are not finite. -/
theorem finiteBinaryFloatFromBits_eq (bits : ℕ) (width : Width) :
    finiteBinaryFloatFromBits bits width =
      if bits / 2 ^ width.format.fractionBits % 2 ^ width.format.exponentBits =
        width.format.topField then .error .nonFiniteError
      else .ok (width.format.decode bits) := by
  have hmask : ((1 <<< width.format.exponentBits) - 1) <<< width.format.fractionBits =
      width.format.topField <<< width.format.fractionBits := by
    rw [Nat.one_shiftLeft]
    rfl
  have hiff : bits &&& width.format.topField <<< width.format.fractionBits =
        width.format.topField <<< width.format.fractionBits ↔
      bits / 2 ^ width.format.fractionBits % 2 ^ width.format.exponentBits =
        width.format.topField := by
    rw [and_exponentMask, Nat.shiftLeft_eq, Nat.shiftLeft_eq]
    exact Nat.mul_left_inj (Nat.two_pow_pos _).ne'
  unfold finiteBinaryFloatFromBits
  rw [binaryFormats_eq]
  simp only [hmask, hiff]
  rfl

/-- The call returns the rounded value, or raises when that one overflows. -/
def Rounded (width : Width) (negative : Bool) (x : ℚ)
    (result : Except DeterministicMathError BinaryValue) : Prop :=
  ∃ y, width.format.magnitudes.RoundsTo x y ∧
    result = if y < 2 ^ (width.format.bias + 1) then .ok (.finite negative y)
      else .error .nonFiniteError

theorem Encodes.rounded (h : Encodes width negative x bits) :
    Rounded width negative x (finiteBinaryFloatFromBits bits width) := by
  obtain ⟨-, y, hy, hdecode⟩ := h
  refine ⟨y, hy, ?_⟩
  rw [finiteBinaryFloatFromBits_eq, hdecode]
  unfold decode ofMagnitude at hdecode
  unfold ofMagnitude
  by_cases hfinite : y < 2 ^ (width.format.bias + 1)
  · rw [if_pos hfinite] at hdecode
    have htop : bits / 2 ^ width.format.fractionBits % 2 ^ width.format.exponentBits ≠
        width.format.topField := by
      intro htop
      simp only [if_pos htop] at hdecode
      split_ifs at hdecode
    rw [if_pos hfinite, if_pos hfinite, if_neg htop]
  · rw [if_neg hfinite] at hdecode
    have htop : bits / 2 ^ width.format.fractionBits % 2 ^ width.format.exponentBits =
        width.format.topField := by
      by_contra htop
      simp only [if_neg htop] at hdecode
      split_ifs at hdecode
    rw [if_neg hfinite, if_neg hfinite, if_pos htop]

theorem roundRatio_rounded (numerator : ℕ) {denominator : ℕ} (hd : 0 < denominator)
    (negative : Bool) (width : Width) : Rounded width negative ((numerator : ℚ) / denominator)
      (roundRatio numerator denominator negative width) :=
  (ratioToBinaryBits_encodes numerator hd negative width).rounded

/-- The separate assembly of a power of two gives the bits of the general conversion. -/
theorem binaryPowerOfTwo_eq {numerator denominator : ℕ} (hd : 0 < denominator)
    (hratio : (numerator : ℚ) / denominator = 2 ^ e) (he : e ≤ width.format.bias) :
    binaryPowerOfTwo e negative width =
      .ok (binaryFloatFromBits (ratioToBinaryBits numerator denominator negative width) width) := by
  have hd' : (0 : ℚ) < denominator := by exact_mod_cast hd
  have hn : 0 < numerator := by
    have hpos := FloatFormat.two_zpow_pos e
    rw [← hratio] at hpos
    have hn' : (0 : ℚ) < numerator := (div_pos_iff_of_pos_right hd').mp hpos
    exact_mod_cast hn'
  have hprecision : ((width.format.fractionBits + 1 : ℕ) : ℤ) - 1 = width.format.fractionBits := by
    push_cast
    omega
  have hlog : Int.log 2 ((numerator : ℚ) / denominator) = e := by
    rw [hratio]
    exact_mod_cast Int.log_zpow (R := ℚ) (b := 2) (by norm_num) e
  have hnormal : ((2 ^ width.format.fractionBits : ℕ) : ℤ) = roundEven ((numerator : ℚ) /
      denominator * 2 ^ ((width.format.fractionBits : ℤ) - e)) := by
    rw [hratio, ← zpow_add₀ (by norm_num), add_sub_cancel, zpow_natCast]
    have hround := roundEven_intCast (2 ^ width.format.fractionBits)
    push_cast at hround ⊢
    exact hround.symm
  unfold binaryPowerOfTwo
  rw [binaryFormats_eq]
  simp only [hprecision]
  rw [if_neg (not_lt.mpr he)]
  congr 2
  rcases lt_or_ge e (1 - width.format.bias) with hsmall | hbig
  · rw [if_neg (not_le.mpr hsmall)]
    have hscaled : (numerator : ℚ) / denominator *
        2 ^ ((width.format.fractionBits : ℤ) - (1 - width.format.bias)) =
        2 ^ (e - (1 - width.format.bias - width.format.fractionBits)) := by
      rw [hratio, ← zpow_add₀ (by norm_num)]
      congr 1
      omega
    rcases lt_or_ge e (1 - width.format.bias - width.format.fractionBits) with htiny | hsub
    · have hzero : ((0 : ℕ) : ℤ) = roundEven ((numerator : ℚ) / denominator *
          2 ^ ((width.format.fractionBits : ℤ) - (1 - width.format.bias))) := by
        rw [hscaled, roundEven_of_le_half (FloatFormat.two_zpow_pos _).le]
        · rfl
        · calc (2 : ℚ) ^ (e - (1 - width.format.bias - width.format.fractionBits)) ≤ 2 ^ (-1 : ℤ) :=
                zpow_le_zpow_right₀ (by norm_num) (by omega)
            _ = 1 / 2 := by norm_num
      rw [ratioToBinaryBits_of_pos hn hd hlog hzero hnormal, if_pos hsmall, if_pos rfl,
        if_neg (not_le.mpr htiny)]
    · obtain ⟨k, hk⟩ := Int.eq_ofNat_of_zero_le
        (show 0 ≤ e - (1 - width.format.bias - width.format.fractionBits) by omega)
      have hpower : ((2 ^ k : ℕ) : ℤ) = roundEven ((numerator : ℚ) / denominator *
          2 ^ ((width.format.fractionBits : ℤ) - (1 - width.format.bias))) := by
        rw [hscaled, hk, zpow_natCast]
        have hround := roundEven_intCast (2 ^ k)
        push_cast at hround ⊢
        exact hround.symm
      have hlt : 2 ^ k < 2 ^ width.format.fractionBits :=
        Nat.pow_lt_pow_right (by norm_num) (by omega)
      rw [ratioToBinaryBits_of_pos hn hd hlog hpower hnormal, if_pos hsmall,
        if_neg (Nat.two_pow_pos k).ne', if_pos hlt, if_pos hlt, if_pos hsub, hk, Int.toNat_natCast,
        Nat.zero_shiftLeft, Nat.or_zero, Nat.one_shiftLeft]
  · -- the small significand is not used
    have hn' : (0 : ℚ) < numerator := by exact_mod_cast hn
    obtain ⟨small, hsmall⟩ := exists_roundEven_nat (mul_pos (div_pos hn' hd')
      (FloatFormat.two_zpow_pos ((width.format.fractionBits : ℤ) - (1 - width.format.bias)))).le
    have hne : 2 ^ width.format.fractionBits ≠ 2 ^ (width.format.fractionBits + 1) :=
      (Nat.pow_lt_pow_right (by norm_num) (Nat.lt_succ_self _)).ne
    rw [ratioToBinaryBits_of_pos hn hd hlog hsmall hnormal, if_neg (not_lt.mpr hbig), if_neg hne,
      if_neg hne, if_neg (not_lt.mpr he), if_pos hbig, Nat.sub_self, Nat.or_zero]

theorem binaryPowerOfTwo_of_gt (he : width.format.bias < e) :
    binaryPowerOfTwo e negative width = .error .nonFiniteError := by
  unfold binaryPowerOfTwo
  rw [binaryFormats_eq]
  exact if_pos he

/-- Every power of two is the ratio of two positive integers. -/
theorem exists_ratio_two_zpow (e : ℤ) : ∃ numerator denominator : ℕ, 0 < denominator ∧
    (numerator : ℚ) / denominator = 2 ^ e := by
  refine ⟨2 ^ e.toNat, 2 ^ (-e).toNat, Nat.two_pow_pos _, ?_⟩
  push_cast
  rw [← zpow_natCast, ← zpow_natCast, ← zpow_sub₀ (by norm_num)]
  congr 1
  omega

theorem binaryPowerOfTwo_rounded (e : ℤ) (negative : Bool) (width : Width) :
    Rounded width negative (2 ^ e) (binaryPowerOfTwo e negative width) := by
  rcases lt_or_ge width.format.bias e with hgt | hle
  · have hbias := bias_pos width.format
    refine ⟨2 ^ e, (FloatFormat.representable_two_zpow _ ?_).roundsTo, ?_⟩
    · show 1 - width.format.bias - width.format.fractionBits ≤ e
      omega
    · have hlarge : (2 : ℚ) ^ (width.format.bias + 1) ≤ 2 ^ e :=
        zpow_le_zpow_right₀ (by norm_num) (by omega)
      rw [binaryPowerOfTwo_of_gt hgt, if_neg (not_lt.mpr hlarge)]
  · obtain ⟨numerator, denominator, hd, hratio⟩ := exists_ratio_two_zpow e
    obtain ⟨-, y, hy, hdecode⟩ := ratioToBinaryBits_encodes numerator hd negative width
    rw [hratio] at hy
    have hsmaller : y < 2 ^ (width.format.bias + 1) := by
      have hbias := bias_pos width.format
      have hle' : y ≤ 2 ^ width.format.bias := by
        apply hy.le_of_le (FloatFormat.representable_two_zpow _ _)
        · exact zpow_le_zpow_right₀ (by norm_num) hle
        · show 1 - width.format.bias - width.format.fractionBits ≤ width.format.bias
          omega
      exact hle'.trans_lt (zpow_lt_zpow_right₀ (by norm_num) (by omega))
    refine ⟨y, hy, ?_⟩
    unfold ofMagnitude at hdecode
    rw [if_pos hsmaller] at hdecode
    rw [binaryPowerOfTwo_eq hd hratio hle, if_pos hsmaller]
    exact congrArg Except.ok hdecode

end Results

end Protocyte.DeterministicMath
