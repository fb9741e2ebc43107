import Protocyte.DeterministicMath.Binary

/-! The rounding of integers to binary32. They are first rounded to 24 significant bits, so that
neither the conversion to binary64 nor the packing as binary32 rounds again. -/
namespace Protocyte.Constants

open Foundation DeterministicMath

section Floats

/-- A magnitude as a float of the width; `none` if it rounds to an infinity. -/
def converted (width : Width) (negative : Bool) (magnitude : ℚ) : Option BinaryValue :=
  if width.format.magnitudes.nearest magnitude < 2 ^ (width.format.bias + 1) then
    some (.finite negative (width.format.magnitudes.nearest magnitude))
  else none

/-- `struct.unpack("<f", struct.pack("<f", value))[0]` -/
def packed : BinaryValue → Option BinaryValue
  | .finite negative magnitude => converted .w32 negative magnitude
  | .infinite negative => some (.infinite negative)
  | .nan => some .nan

def negated : BinaryValue → BinaryValue
  | .finite negative magnitude => .finite (!negative) magnitude
  | .infinite negative => .infinite (!negative)
  | .nan => .nan

def finite : BinaryValue → Bool
  | .finite _ _ => true
  | .infinite _ => false
  | .nan => false

/-- Floats are binary64 values, converted from integers and packed as binary32 with one rounding to
nearest, ties to even. -/
structure BinaryFloats {F : Type} (py : Python F) (value : F → BinaryValue) : Prop where
  ofInt (n : ℤ) : (py.ofInt n).map value = converted .w64 (decide (n < 0)) n.natAbs
  packF32 (x : F) : (py.packF32 x).map value = packed (value x)
  neg (x : F) : value (py.neg x) = negated (value x)
  isFinite (x : F) : py.isFinite x = finite (value x)

end Floats

section Prerounding

variable {magnitude : ℕ}

theorem bias_w32 : Width.w32.format.bias = 127 := rfl

theorem bias_w64 : Width.w64.format.bias = 1023 := rfl

/-- The significand that is left of a magnitude with more than 24 bits. -/
private theorem significand_eq {shift : ℕ} (hshift : shift ≠ 0) :
    ((if magnitude % 2 ^ shift > 2 ^ (shift - 1) ∨
        (magnitude % 2 ^ shift = 2 ^ (shift - 1) ∧ magnitude / 2 ^ shift % 2 = 1) then
      magnitude / 2 ^ shift + 1 else magnitude / 2 ^ shift : ℕ) : ℤ) =
      roundEven ((magnitude : ℚ) / 2 ^ shift) := by
  have hpow : 2 ^ shift = 2 ^ (shift - 1) * 2 := by
    rw [← pow_succ]
    congr 1
    omega
  have hratio := @roundEven_ratio magnitude (2 ^ shift) (Nat.two_pow_pos shift)
  push_cast at hratio
  rw [hratio]
  simp only [Nat.shiftLeft_eq, pow_one, Nat.and_one_is_mod]
  have hlt : 2 ^ shift < magnitude % 2 ^ shift * 2 ↔ magnitude % 2 ^ shift > 2 ^ (shift - 1) := by
    omega
  have heq : magnitude % 2 ^ shift * 2 = 2 ^ shift ↔ magnitude % 2 ^ shift = 2 ^ (shift - 1) := by
    omega
  simp only [hlt, heq]
  split_ifs <;> push_cast <;> rfl

/-- The carry out of the 24 bits leaves the value as it is. -/
private theorem carry_eq (truncated shift : ℕ) :
    (if truncated = 2 ^ 24 then (truncated / 2) * 2 ^ (shift + 1) else truncated * 2 ^ shift) =
      truncated * 2 ^ shift := by
  split_ifs with h
  · rw [h, pow_succ]
    ring
  · rfl

private theorem log_natCast (h : 0 < magnitude) :
    Int.log 2 (magnitude : ℚ) = (bitLength magnitude : ℤ) - 1 := by
  apply log_eq_of_bounds
  · have hlow : (2 : ℚ) ^ bitLength magnitude ≤ 2 * magnitude := by
      exact_mod_cast two_pow_bitLength_le h
    rw [zpow_sub₀ (by norm_num), zpow_natCast, zpow_one]
    linarith
  · rw [sub_add_cancel, zpow_natCast]
    exact_mod_cast lt_two_pow_bitLength magnitude

theorem nearest_of_long (h : 24 < bitLength magnitude) :
    Width.w32.format.magnitudes.nearest magnitude =
      roundEven ((magnitude : ℚ) / 2 ^ (bitLength magnitude - 24)) *
        2 ^ (bitLength magnitude - 24) := by
  have hpos : 0 < magnitude := by
    by_contra hzero
    obtain rfl : magnitude = 0 := by omega
    exact absurd h (by decide)
  have hplace : Width.w32.format.magnitudes.lastPlace magnitude =
      ((bitLength magnitude - 24 : ℕ) : ℤ) := by
    rw [InterchangeFormat.lastPlace_eq, log_natCast hpos, bias_w32]
    show max ((bitLength magnitude : ℤ) - 1 - 23) (1 - 127 - 23) = _
    omega
  unfold FloatFormat.nearest FloatFormat.significand
  rw [hplace, zpow_natCast]

theorem nearest_of_short (h : bitLength magnitude ≤ 24) :
    Width.w32.format.magnitudes.nearest magnitude = magnitude := by
  apply FloatFormat.Representable.nearest_eq
  refine ⟨magnitude, 0, ?_, ?_, ?_⟩
  · exact (lt_two_pow_bitLength magnitude).trans_le (Nat.pow_le_pow_right (by norm_num) h)
  · show 1 - Width.w32.format.bias - 23 ≤ 0
    rw [bias_w32]
    norm_num
  · rw [zpow_zero, mul_one]

/-- What binary32 represents is not rounded by a conversion to binary64. -/
theorem nearest_binary64 {y : ℚ} (h : Width.w32.format.magnitudes.Representable y) :
    Width.w64.format.magnitudes.nearest y = y := by
  apply FloatFormat.Representable.nearest_eq
  apply h.widen
  · show 24 ≤ 53
    norm_num
  · show 1 - Width.w64.format.bias - 52 ≤ 1 - Width.w32.format.bias - 23
    rw [bias_w32, bias_w64]
    norm_num

end Prerounding

section Correctness

variable {F : Type} {py : Python F} {value : F → BinaryValue}

/-- The integers converted are binary32 values, so that the conversion to binary64 is exact. -/
theorem converted_binary64 {negative : Bool} {y : ℚ}
    (h : Width.w32.format.magnitudes.Representable y) :
    converted .w64 negative y = if y < 2 ^ (1024 : ℤ) then some (.finite negative y) else none := by
  unfold converted
  rw [nearest_binary64 h, bias_w64]
  rfl

theorem representable_nearest (n : ℤ) :
    Width.w32.format.magnitudes.Representable
      (Width.w32.format.magnitudes.nearest (n.natAbs : ℕ)) :=
  (FloatFormat.roundsTo_nearest_of_nonneg (Nat.cast_nonneg _)).representable

theorem roundIntegerToF32Input_of_long (py : Python F) {n : ℤ} (h : 24 < bitLength n.natAbs) :
    ∃ rounded : ℕ, (rounded : ℚ) = Width.w32.format.magnitudes.nearest (n.natAbs : ℕ) ∧
      roundIntegerToF32Input py n =
        if n < 0 then (py.ofInt rounded).map py.neg else py.ofInt rounded := by
  have hshift : bitLength n.natAbs - 24 ≠ 0 := by omega
  have hsignificand := @significand_eq n.natAbs _ hshift
  unfold roundIntegerToF32Input
  simp only [hshift, if_false, carry_eq]
  refine ⟨_, ?_, rfl⟩
  rw [nearest_of_long h, ← hsignificand, Int.cast_natCast, Nat.cast_mul, Nat.cast_pow,
    Nat.cast_ofNat]

theorem roundIntegerToF32Input_of_short (py : Python F) {n : ℤ} (h : bitLength n.natAbs ≤ 24) :
    roundIntegerToF32Input py n = py.ofInt n := by
  unfold roundIntegerToF32Input
  exact if_pos (by omega)

theorem roundIntegerToF32Input_value (h : BinaryFloats py value) (n : ℤ) :
    (roundIntegerToF32Input py n).map value =
      if Width.w32.format.magnitudes.nearest (n.natAbs : ℕ) < 2 ^ (1024 : ℤ) then
        some (.finite (decide (n < 0)) (Width.w32.format.magnitudes.nearest (n.natAbs : ℕ)))
      else none := by
  have hrepresentable := representable_nearest n
  rcases le_or_gt (bitLength n.natAbs) 24 with hshort | hlong
  · rw [nearest_of_short hshort] at hrepresentable ⊢
    rw [roundIntegerToF32Input_of_short py hshort, h.ofInt, converted_binary64 hrepresentable]
  · obtain ⟨rounded, hrounded, heq⟩ := roundIntegerToF32Input_of_long py hlong
    rw [← hrounded] at hrepresentable ⊢
    have hconverted : (py.ofInt rounded).map value =
        if (rounded : ℚ) < 2 ^ (1024 : ℤ) then some (.finite false rounded) else none := by
      rw [h.ofInt, Int.natAbs_natCast, ← converted_binary64 hrepresentable]
      rfl
    rw [heq]
    by_cases hneg : n < 0
    · have hmap : ((py.ofInt rounded).map py.neg).map value =
          ((py.ofInt rounded).map value).map negated := by
        rw [Option.map_map, Option.map_map]
        congr 1
        funext x
        exact h.neg x
      rw [if_pos hneg, hmap, hconverted, decide_eq_true hneg]
      split_ifs <;> rfl
    · rw [if_neg hneg, hconverted, decide_eq_false hneg]

/-- What is left after the conversion: the checks, and a packing that is exact too. -/
theorem packFinite_of_representable (h : BinaryFloats py value) {numeric : Option F}
    {negative : Bool} {y : ℚ} (error : String)
    (hy : Width.w32.format.magnitudes.Representable y)
    (hnumeric : numeric.map value =
      if y < 2 ^ (1024 : ℤ) then some (.finite negative y) else none) :
    if y < 2 ^ (Width.w32.format.bias + 1) then
      ∃ x, packFinite py error numeric = .ok x ∧ value x = .finite negative y
    else packFinite py error numeric = .error ⟨error⟩ := by
  have hle : (2 : ℚ) ^ (Width.w32.format.bias + 1) ≤ 2 ^ (1024 : ℤ) := by
    apply zpow_le_zpow_right₀ (by norm_num)
    rw [bias_w32]
    norm_num
  cases numeric with
  | none =>
    have hlarge : ¬y < 2 ^ (1024 : ℤ) := by
      intro hlt
      rw [if_pos hlt] at hnumeric
      exact absurd hnumeric (Option.some_ne_none _).symm
    rw [if_neg fun hlt => hlarge (hlt.trans_le hle)]
    rfl
  | some x =>
    have hvalue : value x = .finite negative y := by
      rw [Option.map_some] at hnumeric
      split_ifs at hnumeric
      exact Option.some.inj hnumeric
    have hfinite : py.isFinite x = true := by
      rw [h.isFinite, hvalue]
      rfl
    have hpacked : (py.packF32 x).map value =
        if y < 2 ^ (Width.w32.format.bias + 1) then some (.finite negative y) else none := by
      rw [h.packF32, hvalue, packed, converted, hy.nearest_eq]
    unfold packFinite
    simp only [hfinite, Bool.not_true, Bool.false_eq_true, if_false]
    cases hpack : py.packF32 x with
    | none =>
      rw [hpack] at hpacked
      split_ifs with hlt
      · rw [if_pos hlt] at hpacked
        exact absurd hpacked (Option.some_ne_none _).symm
      · rfl
    | some rounded =>
      rw [hpack, Option.map_some] at hpacked
      split_ifs at hpacked with hlt
      have hrounded := Option.some.inj hpacked
      have hfinite' : py.isFinite rounded = true := by
        rw [h.isFinite, hrounded]
        rfl
      rw [if_pos hlt]
      refine ⟨rounded, ?_, hrounded⟩
      simp [hfinite']

/-- The result is the nearest binary32 value, with ties to even, and the error is raised exactly
when that one is not finite. -/
theorem roundIntegerF32_rounds (h : BinaryFloats py value) (n : ℤ) (error : String) :
    (∃ y, Width.w32.format.magnitudes.RoundsTo |(n : ℚ)| y) ∧
      ∀ y, Width.w32.format.magnitudes.RoundsTo |(n : ℚ)| y →
        if y < 2 ^ (Width.w32.format.bias + 1) then
          ∃ x, roundIntegerF32 py n error = .ok x ∧ value x = .finite (decide (n < 0)) y
        else roundIntegerF32 py n error = .error ⟨error⟩ := by
  have habs : |(n : ℚ)| = (n.natAbs : ℕ) := by
    rw [Nat.cast_natAbs, Int.cast_abs]
  rw [habs]
  have hnearest : Width.w32.format.magnitudes.RoundsTo (n.natAbs : ℕ) _ :=
    FloatFormat.roundsTo_nearest_of_nonneg (Nat.cast_nonneg _)
  refine ⟨⟨_, hnearest⟩, ?_⟩
  intro y hy
  have hinput := roundIntegerToF32Input_value h n
  rw [hnearest.unique hy] at hinput
  exact packFinite_of_representable h error hy.representable hinput

/-- The value of a finite float. -/
def finiteValue : BinaryValue → ℚ
  | .finite negative magnitude => if negative then -magnitude else magnitude
  | .infinite _ => 0
  | .nan => 0

def ofRat (x : ℚ) : BinaryValue :=
  Width.w64.format.ofMagnitude (decide (x < 0)) (Width.w64.format.magnitudes.nearest |x|)

/-- Binary64 arithmetic on finite values; what needs a math backend or Unicode tables is left out. -/
def binaryPython : Python BinaryValue where
  zero := .finite false 0
  one := .finite false 1
  half := .finite false (1 / 2)
  ofInt n := converted .w64 (decide (n < 0)) n.natAbs
  parseFloat _ := none
  isFinite := finite
  packF32 := packed
  neg := negated
  add x y := ofRat (finiteValue x + finiteValue y)
  sub x y := ofRat (finiteValue x - finiteValue y)
  mul x y := ofRat (finiteValue x * finiteValue y)
  div x y := ofRat (finiteValue x / finiteValue y)
  eq x y := finiteValue x = finiteValue y
  lt x y := finiteValue x < finiteValue y
  abs x := ofRat |finiteValue x|
  copysign x y := if finiteValue y < 0 then ofRat (-|finiteValue x|) else ofRat |finiteValue x|
  trunc x := if finiteValue x < 0 then (finiteValue x).ceil else (finiteValue x).floor
  ceil x := (finiteValue x).ceil
  floor x := (finiteValue x).floor
  isInteger x := (finiteValue x).den = 1
  modf x := (ofRat (finiteValue x - (finiteValue x).floor), ofRat (finiteValue x).floor)
  format _ x := toString (finiteValue x)
  evaluateUnary _ _ _ := .error .domain
  evaluateDeterministicPow _ _ := .error .domain
  isSpace _ := false
  isDigit _ := false
  isAlpha _ := false
  isAlnum _ := false
  decimal _ := none
  literalEval _ := none
  repr text := "'" ++ text ++ "'"

theorem binaryPython_floats : BinaryFloats binaryPython id where
  ofInt _ := Option.map_id_apply
  packF32 _ := Option.map_id_apply
  neg _ := rfl
  isFinite _ := rfl

/-- Rounded to binary64 first, the integer would be a midpoint. -/
theorem roundIntegerF32_rounds_aboveMidpoint :
    (∃ y, Width.w32.format.magnitudes.RoundsTo |((2 ^ 60 + 2 ^ 36 + 1 : ℤ) : ℚ)| y) ∧
      ∀ y, Width.w32.format.magnitudes.RoundsTo |((2 ^ 60 + 2 ^ 36 + 1 : ℤ) : ℚ)| y →
        if y < 2 ^ (Width.w32.format.bias + 1) then
          ∃ x, roundIntegerF32 binaryPython (2 ^ 60 + 2 ^ 36 + 1) notFinite = .ok x ∧
            id x = .finite (decide ((2 ^ 60 + 2 ^ 36 + 1 : ℤ) < 0)) y
        else roundIntegerF32 binaryPython (2 ^ 60 + 2 ^ 36 + 1) notFinite = .error ⟨notFinite⟩ :=
  roundIntegerF32_rounds binaryPython_floats (2 ^ 60 + 2 ^ 36 + 1) notFinite

example : (roundIntegerF32 binaryPython (2 ^ 60 + 2 ^ 36 + 1) notFinite).toOption =
    some (.finite false (2 ^ 60 + 2 ^ 37)) := by
  decide +kernel

end Correctness

end Protocyte.Constants
