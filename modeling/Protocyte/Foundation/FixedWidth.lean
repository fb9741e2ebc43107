import Mathlib.Data.Int.Notation
import Mathlib.Tactic.Common
import Mathlib.Tactic.Ring

/-! Fixed-width integer types in two's complement: the values of a type, the value congruent to
an integer, and the results an operation on them may have. -/
namespace Foundation

structure IntType where
  width : ℕ
  signed : Bool

namespace IntType

variable (T : IntType)

def lower : ℤ := if T.signed then -(2 ^ (T.width - 1)) else 0

def upper : ℤ := T.lower + 2 ^ T.width - 1

def Fits (x : ℤ) : Prop := T.lower ≤ x ∧ x ≤ T.upper

instance (x : ℤ) : Decidable (T.Fits x) := inferInstanceAs (Decidable (_ ∧ _))

/-- The value of the type that is congruent to `x`. -/
def wrap (x : ℤ) : ℤ := (x - T.lower) % 2 ^ T.width + T.lower

/-- The values of the type. -/
def Value := {x : ℤ // T.Fits x}

theorem modulus_pos : (0 : ℤ) < 2 ^ T.width := Int.pow_pos (by decide)

theorem fits_wrap (x : ℤ) : T.Fits (T.wrap x) := by
  have hlow := Int.emod_nonneg (x - T.lower) (Int.ne_of_gt T.modulus_pos)
  have hhigh := Int.emod_lt_of_pos (x - T.lower) T.modulus_pos
  unfold Fits wrap upper
  constructor <;> omega

theorem wrap_of_fits {x : ℤ} (h : T.Fits x) : T.wrap x = x := by
  have hmod : (x - T.lower) % 2 ^ T.width = x - T.lower := by
    have hlow := h.1
    have hhigh := h.2
    unfold upper at hhigh
    exact Int.emod_eq_of_lt (by omega) (by omega)
  unfold wrap
  rw [hmod]
  omega

theorem wrap_emod (x : ℤ) : T.wrap (x % 2 ^ T.width) = T.wrap x := by
  unfold wrap
  rw [Int.emod_sub_emod]

theorem wrap_congr {x y : ℤ} (h : x % 2 ^ T.width = y % 2 ^ T.width) : T.wrap x = T.wrap y := by
  rw [← T.wrap_emod x, h, T.wrap_emod]

def ofInt (x : ℤ) : T.Value := ⟨T.wrap x, T.fits_wrap x⟩

/-- The value itself, when the type has it. -/
def exactly (x : ℤ) : Option T.Value := if h : T.Fits x then some ⟨x, h⟩ else none

/-- The result of arithmetic: signed overflow has none, unsigned arithmetic wraps. -/
def result (x : ℤ) : Option T.Value := if T.signed then T.exactly x else some (T.ofInt x)

/-- The bits of a value. -/
def bits (x : T.Value) : BitVec T.width := BitVec.ofInt T.width x.val

def ofBits (b : BitVec T.width) : T.Value := T.ofInt b.toNat

theorem exactly_eq_some {x : ℤ} {v : T.Value} : T.exactly x = some v ↔ v.val = x := by
  unfold exactly
  split
  · constructor
    · intro h
      exact congrArg Subtype.val (Option.some.inj h).symm
    · intro h
      exact congrArg some (Subtype.ext h.symm)
  · rename_i hfits
    constructor
    · intro h
      cases h
    · intro h
      exact absurd (h ▸ v.property) hfits

end IntType

end Foundation
