import Mathlib.Data.Int.Log
import Mathlib.Data.Rat.Floor
import Mathlib.Algebra.Order.Field.Power
import Mathlib.Tactic.Linarith
import Mathlib.Tactic.FieldSimp
import Mathlib.Tactic.Ring

/-! Rounding to nearest, ties to even: to an integer, and to the values of a binary format whose
exponents have a lower bound. -/
namespace Foundation

section Integers

/-- The nearest integer, the even one at a midpoint. -/
def roundEven (x : ℚ) : ℤ :=
  if x - ⌊x⌋ < 1 / 2 ∨ (x - ⌊x⌋ = 1 / 2 ∧ ⌊x⌋ % 2 = 0) then ⌊x⌋ else ⌊x⌋ + 1

theorem roundEven_cases (x : ℚ) :
    roundEven x = ⌊x⌋ ∧ x - ⌊x⌋ ≤ 1 / 2 ∨ roundEven x = ⌊x⌋ + 1 ∧ 1 / 2 ≤ x - ⌊x⌋ := by
  unfold roundEven
  split_ifs with h
  · refine .inl ⟨rfl, ?_⟩
    rcases h with h | h
    · exact h.le
    · exact h.1.le
  · push Not at h
    exact .inr ⟨rfl, h.1⟩

theorem le_roundEven {x : ℚ} {n : ℤ} (h : n ≤ x) : n ≤ roundEven x := by
  have hfloor : n ≤ ⌊x⌋ := Int.le_floor.mpr h
  rcases roundEven_cases x with ⟨hround, -⟩ | ⟨hround, -⟩ <;> omega

theorem roundEven_le {x : ℚ} {n : ℤ} (h : x ≤ n) : roundEven x ≤ n := by
  have hfloor : (⌊x⌋ : ℚ) ≤ x := Int.floor_le x
  rcases roundEven_cases x with ⟨hround, -⟩ | ⟨hround, hhalf⟩
  · rw [hround]
    exact_mod_cast hfloor.trans h
  · have hlt : (⌊x⌋ : ℚ) < n := by linarith
    have hint : ⌊x⌋ < n := by exact_mod_cast hlt
    omega

theorem roundEven_nearest (x : ℚ) (k : ℤ) : |x - roundEven x| ≤ |x - k| := by
  have hlow := Int.floor_le x
  have hhigh := Int.lt_floor_add_one x
  rcases le_or_gt k ⌊x⌋ with hk | hk
  · have hk' : (k : ℚ) ≤ ⌊x⌋ := by exact_mod_cast hk
    rw [abs_of_nonneg (by linarith : 0 ≤ x - k)]
    rcases roundEven_cases x with ⟨hround, hhalf⟩ | ⟨hround, hhalf⟩
    · rw [hround, abs_of_nonneg (by linarith)]
      linarith
    · rw [hround, abs_of_nonpos (by push_cast; linarith)]
      push_cast
      linarith
  · have hk' : (⌊x⌋ : ℚ) + 1 ≤ k := by exact_mod_cast hk
    rw [abs_of_nonpos (by linarith : x - k ≤ 0)]
    rcases roundEven_cases x with ⟨hround, hhalf⟩ | ⟨hround, hhalf⟩
    · rw [hround, abs_of_nonneg (by linarith)]
      linarith
    · rw [hround, abs_of_nonpos (by push_cast; linarith)]
      push_cast
      linarith

/-- Only a midpoint has a second nearest integer. -/
theorem even_roundEven_of_tie {x : ℚ} {k : ℤ} (hne : k ≠ roundEven x)
    (h : |x - k| = |x - roundEven x|) : Even (roundEven x) := by
  have hmid : x - k = -(x - roundEven x) := by
    rcases abs_eq_abs.mp h with heq | heq
    · have : (k : ℚ) = roundEven x := by linarith
      exact absurd (by exact_mod_cast this) hne
    · exact heq
  have hlow := Int.floor_le x
  have hhigh := Int.lt_floor_add_one x
  have hsum : (k : ℚ) + roundEven x = 2 * x := by linarith
  have hhalf : x - ⌊x⌋ = 1 / 2 := by
    rcases roundEven_cases x with ⟨hround, hhalf⟩ | ⟨hround, hhalf⟩
    · have hk : (k : ℚ) - ⌊x⌋ = 2 * (x - ⌊x⌋) := by
        rw [hround] at hsum
        linarith
      have hpos : ⌊x⌋ < k := by
        rcases lt_or_ge ⌊x⌋ k with hlt | hge
        · exact hlt
        · have hge' : (k : ℚ) ≤ ⌊x⌋ := by exact_mod_cast hge
          have heq : (k : ℚ) = ⌊x⌋ := by linarith
          rw [hround] at hne
          exact absurd (by exact_mod_cast heq) hne
      have hpos' : (⌊x⌋ : ℚ) + 1 ≤ k := by exact_mod_cast hpos
      linarith
    · have hk : (⌊x⌋ : ℚ) + 1 - k = 2 * (⌊x⌋ + 1 - x) := by
        rw [hround] at hsum
        push_cast at hsum
        linarith
      have hpos : k < ⌊x⌋ + 1 := by
        rcases lt_or_ge k (⌊x⌋ + 1) with hlt | hge
        · exact hlt
        · have hge' : (⌊x⌋ : ℚ) + 1 ≤ k := by exact_mod_cast hge
          have heq : (k : ℚ) = (⌊x⌋ : ℚ) + 1 := by linarith
          rw [hround] at hne
          exact absurd (by exact_mod_cast heq) hne
      have hpos' : (k : ℚ) + 1 ≤ ⌊x⌋ + 1 := by exact_mod_cast hpos
      linarith
  unfold roundEven
  split_ifs with hcond
  · rcases hcond with hlt | heven
    · exact absurd hhalf hlt.ne
    · exact Int.even_iff.mpr heven.2
  · push Not at hcond
    have hodd := hcond.2 hhalf
    rw [Int.even_iff]
    omega

theorem exists_roundEven_nat {x : ℚ} (hx : 0 ≤ x) : ∃ n : ℕ, (n : ℤ) = roundEven x := by
  obtain ⟨n, h⟩ := Int.eq_ofNat_of_zero_le (le_roundEven (n := 0) (by exact_mod_cast hx))
  exact ⟨n, h.symm⟩

/-- Up to a half everything rounds to zero, the half itself because zero is even. -/
theorem roundEven_of_le_half {x : ℚ} (hx : 0 ≤ x) (hhalf : x ≤ 1 / 2) : roundEven x = 0 := by
  have hfloor : ⌊x⌋ = 0 := by
    rw [Int.floor_eq_iff]
    constructor
    · exact_mod_cast hx
    · push_cast
      linarith
  unfold roundEven
  rw [hfloor, Int.cast_zero, sub_zero, if_pos]
  rcases hhalf.lt_or_eq with hlt | heq
  · exact .inl hlt
  · exact .inr ⟨heq, rfl⟩

theorem roundEven_intCast (n : ℤ) : roundEven n = n := by
  apply le_antisymm
  · exact roundEven_le le_rfl
  · exact le_roundEven le_rfl

end Integers

/-- A binary format without an upper bound on its exponents. -/
structure FloatFormat where
  precision : ℕ
  one_lt_precision : 1 < precision
  leastExponent : ℤ

namespace FloatFormat

variable (F : FloatFormat)

def Representable (y : ℚ) : Prop :=
  ∃ (m : ℕ) (f : ℤ), m < 2 ^ F.precision ∧ F.leastExponent ≤ f ∧ y = m * 2 ^ f

/-- The significand of the value, with all the bits the format has for it, is even. -/
def EvenSignificand (y : ℚ) : Prop :=
  ∃ (m : ℕ) (f : ℤ), Even m ∧ m < 2 ^ F.precision ∧ F.leastExponent ≤ f ∧ y = m * 2 ^ f ∧
    (2 ^ (F.precision - 1) ≤ m ∨ f = F.leastExponent)

/-- `y` is the value of the format nearest to `x`, with ties to even. -/
structure RoundsTo (x y : ℚ) : Prop where
  representable : F.Representable y
  nearest : ∀ z, F.Representable z → |x - y| ≤ |x - z|
  tie : ∀ z, F.Representable z → z ≠ y → |x - z| = |x - y| → F.EvenSignificand y

/-- The exponent of the last place of a value. -/
def lastPlace (x : ℚ) : ℤ := max (Int.log 2 x - (F.precision - 1)) F.leastExponent

def significand (x : ℚ) : ℤ := roundEven (x / 2 ^ F.lastPlace x)

def nearest (x : ℚ) : ℚ := F.significand x * 2 ^ F.lastPlace x

variable {F} {x y z : ℚ}

theorem two_zpow_pos (e : ℤ) : (0 : ℚ) < 2 ^ e := zpow_pos (by norm_num) e

theorem zpow_le_self (hx : 0 < x) : (2 : ℚ) ^ Int.log 2 x ≤ x := by
  have h := Int.zpow_log_le_self (b := 2) (by norm_num) hx
  exact_mod_cast h

theorem lt_zpow_succ (x : ℚ) : x < (2 : ℚ) ^ (Int.log 2 x + 1) := by
  have h := Int.lt_zpow_succ_log_self (b := 2) (by norm_num) x
  exact_mod_cast h

/-- The significand fills the precision, unless the last place is the least one. -/
theorem le_significand (hx : 0 < x) (h : F.lastPlace x ≠ F.leastExponent) :
    2 ^ (F.precision - 1) ≤ F.significand x := by
  have hpos := F.one_lt_precision
  have hplace : F.lastPlace x = Int.log 2 x - (F.precision - 1) := by
    unfold lastPlace at h ⊢
    omega
  apply le_roundEven
  rw [hplace, le_div_iff₀ (two_zpow_pos _)]
  push_cast
  rw [← zpow_natCast, ← zpow_add₀ (by norm_num)]
  apply le_trans _ (zpow_le_self hx)
  apply zpow_le_zpow_right₀ (by norm_num)
  omega

theorem significand_le (x : ℚ) : F.significand x ≤ 2 ^ F.precision := by
  apply roundEven_le
  rw [div_le_iff₀ (two_zpow_pos _)]
  push_cast
  rw [← zpow_natCast, ← zpow_add₀ (by norm_num)]
  apply (lt_zpow_succ x).le.trans
  apply zpow_le_zpow_right₀ (by norm_num)
  unfold lastPlace
  omega

theorem significand_nonneg (hx : 0 < x) : 0 ≤ F.significand x := by
  apply le_roundEven
  exact_mod_cast (div_pos hx (two_zpow_pos _)).le

theorem pow_precision : 2 ^ F.precision = 2 ^ (F.precision - 1) * 2 := by
  have hpos := F.one_lt_precision
  rw [← pow_succ]
  congr 1
  omega

theorem representable_of_le {m : ℕ} {f : ℤ} (hm : m ≤ 2 ^ F.precision)
    (hf : F.leastExponent ≤ f) : F.Representable (m * 2 ^ f) := by
  have hpos := F.one_lt_precision
  rcases hm.lt_or_eq with hlt | heq
  · exact ⟨m, f, hlt, hf, rfl⟩
  · refine ⟨2 ^ (F.precision - 1), f + 1, ?_, by omega, ?_⟩
    · exact Nat.pow_lt_pow_right (by norm_num) (by omega)
    · rw [heq, pow_precision, zpow_add₀ (by norm_num)]
      push_cast
      ring

theorem representable_nearest (hx : 0 < x) : F.Representable (F.nearest x) := by
  obtain ⟨m, hm⟩ := Int.eq_ofNat_of_zero_le (significand_nonneg (F := F) hx)
  have hle := significand_le (F := F) x
  unfold nearest
  rw [hm] at hle ⊢
  have hplace : F.leastExponent ≤ F.lastPlace x := le_max_right _ _
  exact_mod_cast representable_of_le (by exact_mod_cast hle) hplace

theorem abs_sub_mul_lastPlace (x : ℚ) (a : ℤ) : |x - a * 2 ^ F.lastPlace x| =
    |x / 2 ^ F.lastPlace x - a| * 2 ^ F.lastPlace x := by
  have hpos := two_zpow_pos (F.lastPlace x)
  nth_rewrite 3 [← abs_of_pos hpos]
  rw [← abs_mul, sub_mul, div_mul_cancel₀ _ hpos.ne']

/-- A multiple of the last place is no nearer than the rounded value. -/
theorem nearest_le_of_multiple (k : ℤ) :
    |x - F.nearest x| ≤ |x - k * 2 ^ F.lastPlace x| := by
  unfold nearest
  rw [abs_sub_mul_lastPlace, abs_sub_mul_lastPlace]
  exact mul_le_mul_of_nonneg_right (roundEven_nearest _ k) (two_zpow_pos _).le

/-- A representable value is a multiple of the last place, or lies below the binade of `x`. -/
theorem multiple_or_lt (hz : F.Representable z) :
    (∃ k : ℤ, z = k * 2 ^ F.lastPlace x) ∨
      z < 2 ^ Int.log 2 x ∧ F.lastPlace x = Int.log 2 x - (F.precision - 1) := by
  obtain ⟨m, f, hm, hf, rfl⟩ := hz
  rcases le_or_gt (F.lastPlace x) f with hle | hlt
  · refine .inl ⟨m * 2 ^ (f - F.lastPlace x).toNat, ?_⟩
    have hexp : f = (f - F.lastPlace x).toNat + F.lastPlace x := by omega
    nth_rewrite 1 [hexp]
    rw [zpow_add₀ (by norm_num), zpow_natCast]
    push_cast
    ring
  · have hplace : F.lastPlace x = Int.log 2 x - (F.precision - 1) := by
      unfold lastPlace at hlt ⊢
      omega
    refine .inr ⟨?_, hplace⟩
    have hm' : (m : ℚ) < 2 ^ (F.precision : ℤ) := by
      rw [zpow_natCast]
      exact_mod_cast hm
    calc (m : ℚ) * 2 ^ f < 2 ^ (F.precision : ℤ) * 2 ^ f :=
          mul_lt_mul_of_pos_right hm' (two_zpow_pos f)
      _ = 2 ^ (F.precision + f) := (zpow_add₀ (by norm_num) _ _).symm
      _ ≤ 2 ^ Int.log 2 x := zpow_le_zpow_right₀ (by norm_num) (by omega)

/-- The binade of `x` starts at a multiple of the last place. -/
theorem nearest_lt_of_lt (hx : 0 < x) (hlt : z < 2 ^ Int.log 2 x)
    (hplace : F.lastPlace x = Int.log 2 x - (F.precision - 1)) :
    |x - F.nearest x| < |x - z| := by
  have hpos := F.one_lt_precision
  have hstart : (2 : ℚ) ^ Int.log 2 x =
      ((2 ^ (F.precision - 1) : ℤ) : ℚ) * 2 ^ F.lastPlace x := by
    push_cast
    rw [← zpow_natCast, ← zpow_add₀ (by norm_num), hplace]
    congr 1
    omega
  have hle := nearest_le_of_multiple (F := F) (x := x) (2 ^ (F.precision - 1))
  rw [← hstart] at hle
  have hself := zpow_le_self hx
  apply hle.trans_lt
  rw [abs_of_nonneg (by linarith), abs_of_nonneg (by linarith)]
  linarith

theorem nearest_le (hx : 0 < x) (hz : F.Representable z) : |x - F.nearest x| ≤ |x - z| := by
  rcases multiple_or_lt (x := x) hz with ⟨k, rfl⟩ | ⟨hlt, hplace⟩
  · exact nearest_le_of_multiple k
  · exact (nearest_lt_of_lt hx hlt hplace).le

theorem evenSignificand_nearest (hx : 0 < x) (heven : Even (F.significand x)) :
    F.EvenSignificand (F.nearest x) := by
  have hpos := F.one_lt_precision
  obtain ⟨m, hm⟩ := Int.eq_ofNat_of_zero_le (significand_nonneg (F := F) hx)
  have hplace : F.leastExponent ≤ F.lastPlace x := le_max_right _ _
  have hle : m ≤ 2 ^ F.precision := by
    have hle := significand_le (F := F) x
    rw [hm] at hle
    exact_mod_cast hle
  have hvalue : F.nearest x = m * 2 ^ F.lastPlace x := by
    unfold nearest
    rw [hm]
    norm_cast
  rcases hle.lt_or_eq with hlt | heq
  · refine ⟨m, F.lastPlace x, ?_, hlt, hplace, hvalue, ?_⟩
    · rw [hm] at heven
      exact_mod_cast heven
    · rcases eq_or_ne (F.lastPlace x) F.leastExponent with hleast | hne
      · exact .inr hleast
      · have hfull := le_significand hx hne
        rw [hm] at hfull
        exact .inl (by exact_mod_cast hfull)
  · refine ⟨2 ^ (F.precision - 1), F.lastPlace x + 1, ?_, ?_, by omega, ?_, .inl le_rfl⟩
    · exact (Nat.even_pow.mpr ⟨even_two, by omega⟩)
    · exact Nat.pow_lt_pow_right (by norm_num) (by omega)
    · rw [hvalue, heq, pow_precision, zpow_add₀ (by norm_num)]
      push_cast
      ring

theorem roundsTo_nearest (hx : 0 < x) : F.RoundsTo x (F.nearest x) where
  representable := representable_nearest hx
  nearest := fun _ hz => nearest_le hx hz
  tie := by
    intro z hz hne heq
    apply evenSignificand_nearest hx
    rcases multiple_or_lt (x := x) hz with ⟨k, rfl⟩ | ⟨hlt, hplace⟩
    · have hk : k ≠ F.significand x := by
        rintro rfl
        exact hne rfl
      unfold nearest at heq
      rw [abs_sub_mul_lastPlace, abs_sub_mul_lastPlace] at heq
      exact even_roundEven_of_tie hk (mul_right_cancel₀ (two_zpow_pos _).ne' heq)
    · exact absurd heq (nearest_lt_of_lt hx hlt hplace).ne'

theorem nearest_of_least (h : F.lastPlace x = F.leastExponent) :
    F.nearest x = roundEven (x * 2 ^ (-F.leastExponent)) * 2 ^ F.leastExponent := by
  unfold nearest significand
  rw [h, zpow_neg, div_eq_mul_inv]

/-- Away from the least exponent the significand has its full width, or is the power of two after
the last full one. -/
theorem nearest_of_normal (hx : 0 < x) (h : F.lastPlace x = Int.log 2 x - (F.precision - 1)) :
    F.nearest x = roundEven (x * 2 ^ ((F.precision - 1) - Int.log 2 x)) *
        2 ^ (Int.log 2 x - (F.precision - 1)) ∧
      2 ^ (F.precision - 1) ≤ roundEven (x * 2 ^ ((F.precision - 1 : ℤ) - Int.log 2 x)) ∧
      roundEven (x * 2 ^ ((F.precision - 1 : ℤ) - Int.log 2 x)) ≤ 2 ^ F.precision := by
  have hpos := F.one_lt_precision
  have hsignificand :
      F.significand x = roundEven (x * 2 ^ ((F.precision - 1 : ℤ) - Int.log 2 x)) := by
    unfold significand
    rw [h, ← neg_sub, zpow_neg, div_inv_eq_mul]
  refine ⟨?_, ?_, ?_⟩
  · rw [← hsignificand, ← h]
    rfl
  · apply le_roundEven
    have hself := zpow_le_self hx
    calc ((2 ^ (F.precision - 1) : ℤ) : ℚ)
        = 2 ^ Int.log 2 x * 2 ^ ((F.precision - 1 : ℤ) - Int.log 2 x) := by
          push_cast
          rw [← zpow_add₀ (by norm_num), add_sub_cancel, ← zpow_natCast]
          congr 1
          omega
      _ ≤ x * 2 ^ ((F.precision - 1 : ℤ) - Int.log 2 x) :=
          mul_le_mul_of_nonneg_right hself (two_zpow_pos _).le
  · rw [← hsignificand]
    exact significand_le x

/-- A value of the format is its own rounding. -/
theorem Representable.roundsTo (hx : F.Representable x) : F.RoundsTo x x where
  representable := hx
  nearest := by
    intro z hz
    rw [sub_self, abs_zero]
    exact abs_nonneg _
  tie := by
    intro z hz hne heq
    rw [sub_self, abs_zero, abs_eq_zero] at heq
    exact absurd (sub_eq_zero.mp heq).symm hne

theorem Representable.nonneg (h : F.Representable y) : 0 ≤ y := by
  obtain ⟨m, f, -, -, rfl⟩ := h
  exact mul_nonneg m.cast_nonneg (two_zpow_pos f).le

theorem representable_zero (F : FloatFormat) : F.Representable 0 :=
  ⟨0, F.leastExponent, by positivity, le_rfl, by norm_num⟩

theorem representable_two_zpow (F : FloatFormat) {e : ℤ} (h : F.leastExponent ≤ e) :
    F.Representable (2 ^ e) := by
  have hone : 1 < 2 ^ F.precision := Nat.one_lt_two_pow (by have := F.one_lt_precision; omega)
  exact ⟨1, e, hone, h, by norm_num⟩

namespace RoundsTo

variable {y' : ℚ}

/-- Between two values with even significands lies a third. -/
theorem exists_between (hy : F.EvenSignificand y) (hy' : F.EvenSignificand y') (h : y < y') :
    ∃ z, F.Representable z ∧ y < z ∧ z < y' := by
  obtain ⟨m, f, heven, hm, hf, rfl, hfull⟩ := hy
  obtain ⟨m', f', heven', hm', hf', rfl, -⟩ := hy'
  have hpos := two_zpow_pos f
  have hsucc : ((m + 1 : ℕ) : ℚ) * 2 ^ f = m * 2 ^ f + 2 ^ f := by
    push_cast
    ring
  refine ⟨(m + 1 : ℕ) * 2 ^ f, representable_of_le (by omega) hf, by linarith, ?_⟩
  rcases lt_or_ge f' f with hlt | hle
  · -- a smaller last place cannot reach beyond a full significand
    have hm'' : (m' : ℚ) < 2 ^ (F.precision : ℤ) := by
      rw [zpow_natCast]
      exact_mod_cast hm'
    have hfull' : (2 : ℚ) ^ (F.precision - 1 : ℤ) ≤ m := by
      have hone := F.one_lt_precision
      have hfull' : 2 ^ (F.precision - 1) ≤ m := by
        rcases hfull with hfull | hleast
        · exact hfull
        · omega
      have hcast : (F.precision - 1 : ℤ) = ((F.precision - 1 : ℕ) : ℤ) := by omega
      rw [hcast, zpow_natCast]
      exact_mod_cast hfull'
    exfalso
    have hle : (m' : ℚ) * 2 ^ f' ≤ m * 2 ^ f := by
      calc (m' : ℚ) * 2 ^ f' ≤ 2 ^ (F.precision : ℤ) * 2 ^ f' :=
            mul_le_mul_of_nonneg_right hm''.le (two_zpow_pos f').le
        _ = 2 ^ (F.precision + f') := (zpow_add₀ (by norm_num) _ _).symm
        _ ≤ 2 ^ (F.precision - 1 + f : ℤ) := zpow_le_zpow_right₀ (by norm_num) (by omega)
        _ = 2 ^ (F.precision - 1 : ℤ) * 2 ^ f := zpow_add₀ (by norm_num) _ _
        _ ≤ m * 2 ^ f := mul_le_mul_of_nonneg_right hfull' hpos.le
    linarith
  · obtain ⟨d, hd⟩ := Int.eq_ofNat_of_zero_le (show 0 ≤ f' - f by omega)
    have hsplit : (m' : ℚ) * 2 ^ f' = ((m' * 2 ^ d : ℕ) : ℚ) * 2 ^ f := by
      rw [show f' = d + f by omega, zpow_add₀ (by norm_num), zpow_natCast]
      push_cast
      ring
    rw [hsplit] at h ⊢
    have hlt : m < m' * 2 ^ d := by exact_mod_cast lt_of_mul_lt_mul_right h hpos.le
    have hne : m + 1 ≠ m' * 2 ^ d := by
      intro heq
      have hprod : Even (m' * 2 ^ d) := heven'.mul_right _
      rw [← heq, Nat.even_add_one] at hprod
      exact hprod heven
    apply mul_lt_mul_of_pos_right _ hpos
    exact_mod_cast (show m + 1 < m' * 2 ^ d by omega)

theorem ge_unique (h : F.RoundsTo x y) (h' : F.RoundsTo x y') : y' ≤ y := by
  by_contra hlt
  push Not at hlt
  have heq : |x - y| = |x - y'| :=
    le_antisymm (h.nearest y' h'.representable) (h'.nearest y h.representable)
  obtain ⟨z, hz, hyz, hzy'⟩ := exists_between
    (h.tie y' h'.representable hlt.ne' heq.symm) (h'.tie y h.representable hlt.ne heq) hlt
  have hmid : x - y = y' - x := by
    rcases abs_eq_abs.mp heq with hsame | hopp
    · linarith
    · linarith
  have hclose : |x - z| < |x - y| := by
    rw [abs_of_pos (by linarith : 0 < x - y), abs_lt]
    constructor <;> linarith
  exact absurd (h.nearest z hz) (not_le.mpr hclose)

theorem unique (h : F.RoundsTo x y) (h' : F.RoundsTo x y') : y = y' :=
  le_antisymm (h'.ge_unique h) (h.ge_unique h')

theorem le_of_le (h : F.RoundsTo x y) (hz : F.Representable z) (hle : x ≤ z) : y ≤ z := by
  by_contra hlt
  push Not at hlt
  have hclose := h.nearest z hz
  rw [abs_of_nonpos (by linarith), abs_of_nonpos (by linarith)] at hclose
  linarith

theorem le_of_ge (h : F.RoundsTo x y) (hz : F.Representable z) (hle : z ≤ x) : z ≤ y := by
  by_contra hlt
  push Not at hlt
  have hclose := h.nearest z hz
  rw [abs_of_nonneg (by linarith), abs_of_nonneg (by linarith)] at hclose
  linarith

end RoundsTo

theorem nearest_zero (F : FloatFormat) : F.nearest 0 = 0 := by
  unfold nearest significand
  rw [zero_div, roundEven_of_le_half le_rfl (by norm_num)]
  norm_num

theorem Representable.nearest_eq (h : F.Representable x) : F.nearest x = x := by
  rcases h.nonneg.eq_or_lt with rfl | hpos
  · exact nearest_zero F
  · exact (roundsTo_nearest hpos).unique h.roundsTo

theorem roundsTo_nearest_of_nonneg (hx : 0 ≤ x) : F.RoundsTo x (F.nearest x) := by
  rcases hx.eq_or_lt with rfl | hpos
  · rw [nearest_zero]
    exact (representable_zero F).roundsTo
  · exact roundsTo_nearest hpos

/-- A format with more precision and smaller exponents has every value of the other one. -/
theorem Representable.widen {G : FloatFormat} (h : F.Representable y)
    (hprecision : F.precision ≤ G.precision) (hleast : G.leastExponent ≤ F.leastExponent) :
    G.Representable y := by
  obtain ⟨m, f, hm, hf, rfl⟩ := h
  exact ⟨m, f, hm.trans_le (Nat.pow_le_pow_right (by norm_num) hprecision), hleast.trans hf, rfl⟩

end FloatFormat

end Foundation
