import Protocyte.Foundation.NearestEven
import Mathlib.Tactic.NormNum

/-! Binary interchange formats: a sign bit, a biased exponent and a fraction, and the value of a
pattern. -/
namespace Foundation

inductive BinaryValue where
  | finite (negative : Bool) (magnitude : ℚ)
  | infinite (negative : Bool)
  | nan
deriving DecidableEq, Repr

structure InterchangeFormat where
  exponentBits : ℕ
  fractionBits : ℕ
  one_lt_exponentBits : 1 < exponentBits
  fractionBits_pos : 0 < fractionBits

namespace InterchangeFormat

variable (F : InterchangeFormat)

def width : ℕ := 1 + F.exponentBits + F.fractionBits

def bias : ℤ := 2 ^ (F.exponentBits - 1) - 1

theorem one_lt_precision : 1 < F.fractionBits + 1 := by
  have hpos := F.fractionBits_pos
  omega

/-- The magnitudes of the format, without the bound on large exponents. -/
def magnitudes : FloatFormat := ⟨F.fractionBits + 1, F.one_lt_precision, 1 - F.bias - F.fractionBits⟩

/-- The biased exponent of the infinities and the NaNs. -/
def topField : ℕ := 2 ^ F.exponentBits - 1

def pack (negative : Bool) (field fraction : ℕ) : ℕ :=
  negative.toNat * 2 ^ (F.exponentBits + F.fractionBits) + field * 2 ^ F.fractionBits + fraction

def decode (bits : ℕ) : BinaryValue :=
  let negative := decide (2 ^ (F.exponentBits + F.fractionBits) ≤ bits)
  let field := bits / 2 ^ F.fractionBits % 2 ^ F.exponentBits
  let fraction := bits % 2 ^ F.fractionBits
  if field = F.topField then
    if fraction = 0 then .infinite negative else .nan
  else if field = 0 then .finite negative (fraction * 2 ^ (1 - F.bias - F.fractionBits))
  else .finite negative
    (((2 ^ F.fractionBits + fraction : ℕ) : ℚ) * 2 ^ ((field : ℤ) - F.bias - F.fractionBits))

/-- A rounded magnitude overflows from the first power of two beyond the largest exponent on. -/
def ofMagnitude (negative : Bool) (y : ℚ) : BinaryValue :=
  if y < 2 ^ (F.bias + 1) then .finite negative y else .infinite negative

variable {F} {negative : Bool} {field fraction significand : ℕ} {e : ℤ} {x y : ℚ}

theorem two_pow_exponentBits (F : InterchangeFormat) :
    (2 : ℤ) ^ F.exponentBits = 2 * (F.bias + 1) := by
  have hpos := F.one_lt_exponentBits
  unfold bias
  rw [sub_add_cancel, ← pow_succ']
  congr 1
  omega

theorem bias_pos (F : InterchangeFormat) : 0 < F.bias := by
  have hpos := F.one_lt_exponentBits
  have hle : (2 : ℤ) ^ 1 ≤ 2 ^ (F.exponentBits - 1) := pow_le_pow_right₀ (by norm_num) (by omega)
  unfold bias
  omega

theorem topField_eq (F : InterchangeFormat) : (F.topField : ℤ) = 2 * F.bias + 1 := by
  have hpow := two_pow_exponentBits F
  have hle : 1 ≤ 2 ^ F.exponentBits := Nat.one_le_two_pow
  unfold topField
  push_cast [hle]
  omega

theorem topField_lt (F : InterchangeFormat) : F.topField < 2 ^ F.exponentBits := by
  have hle : 1 ≤ 2 ^ F.exponentBits := Nat.one_le_two_pow
  unfold topField
  omega

theorem body_lt (hfield : field < 2 ^ F.exponentBits) (hfraction : fraction < 2 ^ F.fractionBits) :
    field * 2 ^ F.fractionBits + fraction < 2 ^ (F.exponentBits + F.fractionBits) := by
  calc field * 2 ^ F.fractionBits + fraction < (field + 1) * 2 ^ F.fractionBits := by
        rw [add_mul, one_mul]
        omega
    _ ≤ 2 ^ F.exponentBits * 2 ^ F.fractionBits := Nat.mul_le_mul_right _ hfield
    _ = 2 ^ (F.exponentBits + F.fractionBits) := (pow_add _ _ _).symm

theorem pack_lt (negative : Bool) (hfield : field < 2 ^ F.exponentBits)
    (hfraction : fraction < 2 ^ F.fractionBits) : F.pack negative field fraction < 2 ^ F.width := by
  have hbody := body_lt hfield hfraction
  have hwidth : 2 ^ F.width = 2 * 2 ^ (F.exponentBits + F.fractionBits) := by
    unfold width
    ring
  unfold pack
  rw [hwidth]
  cases negative
  · rw [Bool.toNat_false]
    omega
  · rw [Bool.toNat_true]
    omega

/-- The three fields occupy different bits. -/
theorem lor_fields (negative : Bool) (hfield : field < 2 ^ F.exponentBits)
    (hfraction : fraction < 2 ^ F.fractionBits) :
    negative.toNat <<< (F.exponentBits + F.fractionBits) ||| field <<< F.fractionBits ||| fraction =
      F.pack negative field fraction := by
  have hfield' : field <<< F.fractionBits < 2 ^ (F.exponentBits + F.fractionBits) := by
    rw [Nat.shiftLeft_eq]
    have hbody := body_lt hfield (Nat.two_pow_pos F.fractionBits)
    omega
  rw [← Nat.shiftLeft_add_eq_or_of_lt hfield']
  have hshift : negative.toNat <<< (F.exponentBits + F.fractionBits) + field <<< F.fractionBits =
      (negative.toNat * 2 ^ F.exponentBits + field) <<< F.fractionBits := by
    simp only [Nat.shiftLeft_eq, pow_add]
    ring
  rw [hshift, ← Nat.shiftLeft_add_eq_or_of_lt hfraction, Nat.shiftLeft_eq]
  unfold pack
  rw [pow_add]
  ring

theorem decode_pack (hfield : field < 2 ^ F.exponentBits) (hfraction : fraction < 2 ^ F.fractionBits) :
    F.decode (F.pack negative field fraction) =
      if field = F.topField then if fraction = 0 then .infinite negative else .nan
      else if field = 0 then .finite negative (fraction * 2 ^ (1 - F.bias - F.fractionBits))
      else .finite negative
        (((2 ^ F.fractionBits + fraction : ℕ) : ℚ) * 2 ^ ((field : ℤ) - F.bias - F.fractionBits)) := by
  have hbody := body_lt hfield hfraction
  have hpow : 0 < 2 ^ F.fractionBits := Nat.two_pow_pos _
  have hsign : decide (2 ^ (F.exponentBits + F.fractionBits) ≤ F.pack negative field fraction) =
      negative := by
    unfold pack
    cases negative
    · rw [Bool.toNat_false, decide_eq_false_iff_not]
      omega
    · rw [Bool.toNat_true, decide_eq_true_iff]
      omega
  have hsplit : F.pack negative field fraction =
      fraction + (negative.toNat * 2 ^ F.exponentBits + field) * 2 ^ F.fractionBits := by
    unfold pack
    rw [pow_add]
    ring
  have hfractionEq : F.pack negative field fraction % 2 ^ F.fractionBits = fraction := by
    rw [hsplit, Nat.add_mul_mod_self_right, Nat.mod_eq_of_lt hfraction]
  have hfieldEq : F.pack negative field fraction / 2 ^ F.fractionBits % 2 ^ F.exponentBits =
      field := by
    rw [hsplit, Nat.add_mul_div_right _ _ hpow, Nat.div_eq_of_lt hfraction, zero_add, add_comm,
      Nat.add_mul_mod_self_right, Nat.mod_eq_of_lt hfield]
  unfold decode
  rw [hsign, hfractionEq, hfieldEq]

theorem decode_infinite (F : InterchangeFormat) (negative : Bool) :
    F.decode (F.pack negative F.topField 0) = .infinite negative := by
  rw [decode_pack F.topField_lt (Nat.two_pow_pos _), if_pos rfl, if_pos rfl]

/-- A multiple of the least place, up to the first normal one. -/
theorem decode_subnormal (negative : Bool) (h : significand ≤ 2 ^ F.fractionBits) :
    F.decode (F.pack negative (if significand < 2 ^ F.fractionBits then 0 else 1)
        (if significand < 2 ^ F.fractionBits then significand else 0)) =
      .finite negative (significand * 2 ^ (1 - F.bias - F.fractionBits)) := by
  have htop := topField_eq F
  have hbias := bias_pos F
  have htop' : 1 < F.topField := by omega
  split_ifs with hlt
  · rw [decode_pack (by positivity) hlt, if_neg (by omega), if_pos rfl]
  · have heq : significand = 2 ^ F.fractionBits := by omega
    rw [decode_pack (htop'.trans F.topField_lt) (by positivity), if_neg (by omega),
      if_neg one_ne_zero, heq, add_zero, Nat.cast_one]

theorem decode_normal (hlow : 1 - F.bias ≤ e) (hhigh : e ≤ F.bias)
    (hfull : 2 ^ F.fractionBits ≤ significand) (hlt : significand < 2 ^ (F.fractionBits + 1)) :
    F.decode (F.pack negative (e + F.bias).toNat (significand - 2 ^ F.fractionBits)) =
      .finite negative (significand * 2 ^ (e - F.fractionBits)) := by
  have htop := topField_eq F
  have hlt' := F.topField_lt
  obtain ⟨field, hfield⟩ := Int.eq_ofNat_of_zero_le (show 0 ≤ e + F.bias by omega)
  obtain ⟨fraction, rfl⟩ := Nat.exists_eq_add_of_le hfull
  rw [pow_succ] at hlt
  rw [hfield, Int.toNat_natCast, Nat.add_sub_cancel_left,
    decode_pack (by omega) (by omega), if_neg (by omega), if_neg (by omega)]
  have hexp : (field : ℤ) - F.bias - F.fractionBits = e - F.fractionBits := by omega
  rw [hexp]

section Rounding

theorem magnitudes_precision (F : InterchangeFormat) :
    ((F.magnitudes.precision : ℤ) - 1) = F.fractionBits := by
  unfold magnitudes
  push_cast
  omega

theorem lastPlace_eq (F : InterchangeFormat) (x : ℚ) : F.magnitudes.lastPlace x =
    max (Int.log 2 x - F.fractionBits) (1 - F.bias - F.fractionBits) := by
  unfold FloatFormat.lastPlace
  rw [magnitudes_precision]
  rfl

/-- Below the normal magnitudes the rounding is to a multiple of the least place. -/
theorem nearest_subnormal (h : Int.log 2 x < 1 - F.bias)
    (hround : (significand : ℤ) = roundEven (x * 2 ^ ((F.fractionBits : ℤ) - (1 - F.bias)))) :
    F.magnitudes.nearest x = significand * 2 ^ (1 - F.bias - F.fractionBits) ∧
      significand ≤ 2 ^ F.fractionBits := by
  have hplace : F.magnitudes.lastPlace x = F.magnitudes.leastExponent := by
    rw [lastPlace_eq]
    show _ = 1 - F.bias - F.fractionBits
    omega
  have hexp : -F.magnitudes.leastExponent = (F.fractionBits : ℤ) - (1 - F.bias) := by
    show -(1 - F.bias - F.fractionBits) = _
    omega
  have hnearest := FloatFormat.nearest_of_least hplace
  rw [hexp, ← hround, Int.cast_natCast] at hnearest
  refine ⟨hnearest, ?_⟩
  have hlt : x < 2 ^ (1 - F.bias) := by
    apply (FloatFormat.lt_zpow_succ x).trans_le
    exact zpow_le_zpow_right₀ (by norm_num) (by omega)
  have hle : roundEven (x * 2 ^ ((F.fractionBits : ℤ) - (1 - F.bias))) ≤ 2 ^ F.fractionBits := by
    apply roundEven_le
    push_cast
    calc x * 2 ^ ((F.fractionBits : ℤ) - (1 - F.bias))
        ≤ 2 ^ (1 - F.bias) * 2 ^ ((F.fractionBits : ℤ) - (1 - F.bias)) :=
          mul_le_mul_of_nonneg_right hlt.le (FloatFormat.two_zpow_pos _).le
      _ = 2 ^ F.fractionBits := by
          rw [← zpow_add₀ (by norm_num), add_sub_cancel, zpow_natCast]
  rw [← hround] at hle
  exact_mod_cast hle

theorem nearest_normal (hx : 0 < x) (h : 1 - F.bias ≤ Int.log 2 x)
    (hround : (significand : ℤ) = roundEven (x * 2 ^ ((F.fractionBits : ℤ) - Int.log 2 x))) :
    F.magnitudes.nearest x = significand * 2 ^ (Int.log 2 x - F.fractionBits) ∧
      2 ^ F.fractionBits ≤ significand ∧ significand ≤ 2 ^ (F.fractionBits + 1) := by
  have hplace : F.magnitudes.lastPlace x = Int.log 2 x - (F.magnitudes.precision - 1) := by
    rw [lastPlace_eq, magnitudes_precision]
    omega
  obtain ⟨hnearest, hlow, hhigh⟩ := FloatFormat.nearest_of_normal hx hplace
  rw [magnitudes_precision, ← hround] at hnearest hlow hhigh
  rw [Int.cast_natCast] at hnearest
  refine ⟨hnearest, ?_, ?_⟩
  · have hlow' : 2 ^ F.fractionBits ≤ (significand : ℤ) := hlow
    exact_mod_cast hlow'
  · have hhigh' : (significand : ℤ) ≤ 2 ^ (F.fractionBits + 1) := hhigh
    exact_mod_cast hhigh'

end Rounding

end InterchangeFormat

end Foundation
