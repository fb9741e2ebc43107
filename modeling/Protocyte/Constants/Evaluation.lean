import Protocyte.Constants.Cxx
import Protocyte.Constants.Parsing
import Mathlib.Tactic.Linarith
import Mathlib.Tactic.NormNum

/-! The evaluator's operations compute the C++ ones, and a parse gives the C++ meaning of its tree
exactly when the operands it skips are harmless. -/
namespace Protocyte.Constants

open Foundation

section Kinds

theorem IntegerKind.type_lower (kind : IntegerKind) : kind.type.lower = kind.lower := rfl

theorem IntegerKind.type_upper (kind : IntegerKind) : kind.type.upper = kind.upper := by
  cases kind <;> rfl

theorem maskBits_eq_wrap {kind : IntegerKind} (h : kind.signed = false) (x : Int) :
    maskBits x kind.bits = kind.type.wrap x := by
  have hlower : kind.type.lower = 0 := by
    cases kind <;> first | rfl | cases h
  have hwidth : kind.type.width = kind.bits := rfl
  unfold maskBits IntType.wrap
  rw [hlower, hwidth, Int.sub_zero, Int.add_zero]

theorem inRange_of_fits (label what : String) {kind : IntegerKind} {x : Int}
    (h : kind.type.Fits x) : inRange label what x kind = .ok x := by
  have hlow := h.1
  have hhigh := h.2
  rw [kind.type_lower] at hlow
  rw [kind.type_upper] at hhigh
  unfold inRange
  rw [if_neg (by omega)]

theorem inRange_toOption (label what : String) (kind : IntegerKind) (x : Int) :
    (inRange label what x kind).toOption = (kind.type.exactly x).map Subtype.val := by
  unfold IntType.exactly
  split
  · rename_i h
    rw [inRange_of_fits label what h]
    rfl
  · rename_i h
    have hout : x < kind.lower ∨ x > kind.upper := by
      unfold IntType.Fits at h
      rw [kind.type_lower, kind.type_upper] at h
      omega
    unfold inRange
    rw [if_pos hout]
    rfl

theorem normalizeNumericResult_toOption (label : String) (kind : IntegerKind) (x : Int) :
    (normalizeNumericResult label x kind).toOption = (kind.type.result x).map Subtype.val := by
  have htype : kind.type.signed = kind.signed := rfl
  unfold normalizeNumericResult IntType.result
  rw [htype]
  cases hsigned : kind.signed with
  | true => exact inRange_toOption label "result" kind x
  | false =>
    simp only [Bool.not_false, if_true, Bool.false_eq_true, if_false]
    rw [maskBits_eq_wrap hsigned]
    rfl

theorem integerFromBits_eq_wrap (kind : IntegerKind) (x : Int) :
    integerFromBits x kind = kind.type.wrap x := by
  unfold integerFromBits maskBits IntType.wrap
  rw [kind.type_lower]
  have hwidth : kind.type.width = kind.bits := rfl
  rw [hwidth]
  cases kind <;>
  · simp only [IntegerKind.signed, IntegerKind.bits, IntegerKind.lower, if_true,
      Bool.false_eq_true, if_false, true_and, false_and]
    norm_num
    try omega

theorem integerFromBits_maskBits (kind : IntegerKind) (x : Int) :
    integerFromBits (maskBits x kind.bits) kind = kind.type.wrap x := by
  rw [integerFromBits_eq_wrap]
  exact kind.type.wrap_emod x

/-- A value of a kind keeps its value in a signed common kind. -/
theorem usualKind_fits {a b : IntegerKind} {x : Int} (hsigned : (usualKind a b).signed = true)
    (h : a.type.Fits x ∨ b.type.Fits x) : (usualKind a b).type.Fits x := by
  unfold IntType.Fits at h ⊢
  simp only [IntegerKind.type_lower, IntegerKind.type_upper] at h ⊢
  cases a <;> cases b <;>
    first
    | (simp [usualKind, IntegerKind.signed, IntegerKind.bits] at hsigned; done)
    | (simp [usualKind, IntegerKind.signed, IntegerKind.bits, IntegerKind.lower,
        IntegerKind.upper] at h ⊢
       omega)

theorem commonIntegerKind_eq_usualKind (a b : IntegerKind) :
    commonIntegerKind a b = usualKind a b := by
  cases a <;> cases b <;> rfl

end Kinds

section Operands

variable {F : Type} (py : Python F) (label : String)

theorem sourceValue_of_fits {kind : IntegerKind} {x : Int} (h : kind.type.Fits x) :
    sourceValue label (.integer kind x : Number F) = .ok (.integer kind x) := by
  rw [sourceValue]
  cases hsigned : kind.signed with
  | true =>
    rw [if_pos rfl, inRange_of_fits label "operand" h]
    rfl
  | false =>
    rw [if_neg (by simp), maskBits_eq_wrap hsigned, kind.type.wrap_of_fits h]

theorem convertToInteger_of_fits {source target : IntegerKind} {x : Int}
    (h : source.type.Fits x) (htarget : target.signed = true → target.type.Fits x) :
    convertToInteger label (.integer source x : Number F) target = .ok (target.type.wrap x) := by
  unfold convertToInteger
  rw [sourceValue_of_fits label h]
  simp only [bind, Except.bind]
  cases hsigned : target.signed with
  | true =>
    rw [if_pos rfl, inRange_of_fits label "operand" (htarget hsigned),
      target.type.wrap_of_fits (htarget hsigned)]
  | false => rw [if_neg (by simp), maskBits_eq_wrap hsigned]

theorem convertToInteger_self {kind : IntegerKind} {x : Int} (h : kind.type.Fits x) :
    convertToInteger label (.integer kind x : Number F) kind = .ok x := by
  rw [convertToInteger_of_fits label h fun _ => h, kind.type.wrap_of_fits h]

private theorem promote_bool (b : Bool) :
    (CxxValue.bool b).promote.value.val = if b then 1 else 0 := by
  cases b <;> decide

theorem expectBool_typed (v : CxxValue) : expectBool py label v.typed = .ok v.truth := by
  cases v with
  | bool b => rfl
  | int x =>
    rw [CxxValue.typed, expectBool, convertToInteger_self label x.value.property]
    rfl

theorem expectNumeric_typed (v : CxxValue) :
    expectNumeric label (v.typed : TypedValue F)
      = .ok (.integer v.promote.kind v.promote.value.val) := by
  cases v with
  | bool b =>
    rw [promote_bool]
    rfl
  | int x => rfl

theorem expectIntegral_typed (v : CxxValue) :
    expectIntegral label (v.typed : TypedValue F)
      = .ok (v.promote.value.val, v.promote.kind) := by
  cases v with
  | bool b =>
    rw [promote_bool]
    rfl
  | int x => rfl

theorem convertToInteger_left (l r : CxxValue) :
    convertToInteger label (.integer l.promote.kind l.promote.value.val : Number F)
      (l.commonKind r) = .ok (l.left r).val :=
  convertToInteger_of_fits label l.promote.value.property fun hsigned =>
    usualKind_fits hsigned (.inl l.promote.value.property)

theorem convertToInteger_right (l r : CxxValue) :
    convertToInteger label (.integer r.promote.kind r.promote.value.val : Number F)
      (l.commonKind r) = .ok (l.right r).val :=
  convertToInteger_of_fits label r.promote.value.property fun hsigned =>
    usualKind_fits hsigned (.inr r.promote.value.property)

theorem commonNumericKind_integers (a b : IntegerKind) :
    commonNumericKind (.integer a) [.integer b] = .integer (usualKind a b) := by
  unfold commonNumericKind
  rw [if_neg (by simp), if_neg (by simp), ← commonIntegerKind_eq_usualKind]
  rfl

theorem numericOperands_typed (l r : CxxValue) :
    numericOperands py label l.typed r.typed
      = .ok (.integers (l.commonKind r) (l.left r).val (l.right r).val) := by
  have hkind : commonNumericKind (.integer l.promote.kind) [.integer r.promote.kind]
      = .integer (l.commonKind r) := commonNumericKind_integers _ _
  unfold numericOperands
  rw [expectNumeric_typed, expectNumeric_typed]
  simp only [bind, Except.bind, Number.kind]
  rw [hkind]
  simp only [convertToInteger_left, convertToInteger_right]
  rfl

end Operands

section Operations

variable {F : Type} (py : Python F) (label : String)

private theorem toOption_bind {α β : Type} (x : Result α) (f : α → Result β) :
    (x >>= f).toOption = (x.toOption >>= fun a => (f a).toOption) := by
  cases x <;> rfl

theorem numericBinary_typed (f : Int → Int → Int) (g : F → F → F) (l r : CxxValue) :
    (numericBinary py label f g l.typed r.typed).toOption
      = (CxxValue.arithmetic f l r).map CxxValue.typed := by
  unfold numericBinary CxxValue.arithmetic
  rw [numericOperands_typed]
  simp only [bind, Except.bind]
  have hbind := toOption_bind
    (normalizeNumericResult label (f (l.left r).val (l.right r).val) (l.commonKind r))
    fun result => numericValue py (.integer (l.commonKind r) result)
  simp only [bind, Except.bind] at hbind
  rw [hbind, normalizeNumericResult_toOption]
  cases (l.commonKind r).type.result (f (l.left r).val (l.right r).val) <;> rfl

theorem numericCompare_typed (p : Int → Int → Bool) (q : F → F → Bool) (l r : CxxValue) :
    numericCompare py label p q l.typed r.typed = .ok (p (l.left r).val (l.right r).val) := by
  unfold numericCompare
  rw [numericOperands_typed]
  rfl

theorem compareEqual_typed (l r : CxxValue) :
    compareEqual py label l.typed r.typed = .ok (decide ((l.left r).val = (l.right r).val)) := by
  have hcompare := numericCompare_typed py label (fun a b => a = b) py.eq l r
  cases l <;> cases r <;> exact hcompare

theorem integerBits_of_fits {kind : IntegerKind} (x : kind.type.Value) :
    integerBits label x.val kind = .ok (kind.type.bits x).toNat := by
  have hnat : (kind.type.bits x).toNat = (maskBits x.val kind.bits).toNat := by
    unfold IntType.bits maskBits
    rw [BitVec.toNat_ofInt]
    congr 2
  unfold integerBits
  cases hsigned : kind.signed with
  | true =>
    simp only [if_true, inRange_of_fits label "operand" x.property, hnat]
    rfl
  | false =>
    simp only [Bool.false_eq_true, if_false, hnat]
    rfl

theorem bitwiseBinary_typed (op : ℕ → ℕ → ℕ) (f : (w : ℕ) → BitVec w → BitVec w → BitVec w)
    (hop : ∀ w (a b : BitVec w), (f w a b).toNat = op a.toNat b.toNat) (l r : CxxValue) :
    (bitwiseBinary py label op l.typed r.typed).toOption
      = (CxxValue.bitwise f l r).map CxxValue.typed := by
  unfold bitwiseBinary
  rw [expectIntegral_typed, expectIntegral_typed]
  simp only [bind, Except.bind]
  have hkind : commonIntegerKind l.promote.kind r.promote.kind = l.commonKind r :=
    commonIntegerKind_eq_usualKind _ _
  rw [hkind, convertToInteger_left, convertToInteger_right]
  simp only [integerBits_of_fits label (l.left r), integerBits_of_fits label (l.right r),
    integerFromBits_maskBits, ← hop]
  rfl

theorem bitwiseComplement_typed (v : CxxValue) :
    (bitwiseComplement py label v.typed).toOption
      = (CxxValue.unary .complement v).map CxxValue.typed := by
  have hnot : (∀ (w : ℕ) (b : BitVec w),
      ((~~~ b).toNat : Int) % 2 ^ w = (-(b.toNat : Int) - 1) % 2 ^ w) := by
    intro w b
    have hlt := b.isLt
    rw [BitVec.toNat_not]
    have hcast : ((2 ^ w - 1 - b.toNat : ℕ) : Int) = -(b.toNat : Int) - 1 + 2 ^ w := by
      have hpos : 1 ≤ 2 ^ w := Nat.one_le_two_pow
      have hpow : ((2 ^ w : ℕ) : Int) = 2 ^ w := by push_cast; rfl
      omega
    rw [hcast, Int.add_emod_right]
  unfold bitwiseComplement
  rw [expectIntegral_typed]
  simp only [bind, Except.bind, integerBits_of_fits label v.promote.value,
    integerFromBits_maskBits]
  have hwrap := v.promote.kind.type.wrap_congr
    (hnot v.promote.kind.type.width (v.promote.kind.type.bits v.promote.value))
  rw [← hwrap]
  rfl

private theorem ediv_pow_fits {kind : IntegerKind} {x : Int} (n : ℕ) (h : kind.type.Fits x) :
    kind.type.Fits (x / 2 ^ n) := by
  have hpos : (0 : Int) < 2 ^ n := Int.pow_pos (by decide)
  have hlower : kind.type.lower ≤ 0 := by cases kind <;> decide
  have hlow := h.1
  have hhigh := h.2
  cases le_or_gt 0 x with
  | inl hx =>
    have hnonneg : 0 ≤ x / 2 ^ n := Int.ediv_nonneg hx (by omega)
    have hle : x / 2 ^ n ≤ x := Int.ediv_le_self _ hx
    constructor <;> omega
  | inr hx =>
    have hneg : x / 2 ^ n < 0 := Int.ediv_neg_of_neg_of_pos hx (by omega)
    have hge : x ≤ x / 2 ^ n := by
      rw [Int.le_ediv_iff_mul_le hpos]
      nlinarith
    have hupper : 0 ≤ kind.type.upper := by cases kind <;> decide
    constructor <;> omega

/-- The shifted value of a valid count. -/
private theorem shiftValue_typed (toLeft : Bool) (f : ℤ → ℕ → ℤ) (l r : CxxValue)
    (hresult : ∀ n : ℕ,
      (if toLeft then
        integerFromBits (maskBits l.promote.value.val l.promote.kind.bits * 2 ^ n) l.promote.kind
      else if l.promote.kind.signed then l.promote.value.val / 2 ^ n
      else maskBits l.promote.value.val l.promote.kind.bits / 2 ^ n)
        = l.promote.kind.type.wrap (f l.promote.value.val n)) :
    (shiftValue py label toLeft l.typed r.typed).toOption
      = (CxxValue.shift f l r).map CxxValue.typed := by
  unfold shiftValue
  rw [expectIntegral_typed, expectIntegral_typed]
  simp only [bind, Except.bind, convertToInteger_self label l.promote.value.property,
    convertToInteger_self label r.promote.value.property, hresult]
  unfold CxxValue.shift
  by_cases hcount : 0 ≤ r.promote.value.val ∧ r.promote.value.val < l.promote.kind.bits
  · rw [if_pos hcount, if_neg (by omega), if_neg (by omega)]
    rfl
  · rw [if_neg hcount]
    by_cases hneg : r.promote.value.val < 0
    · rw [if_pos hneg]
      rfl
    · rw [if_neg hneg, if_pos (by omega)]
      rfl

theorem shiftValue_left (l r : CxxValue) :
    (shiftValue py label true l.typed r.typed).toOption
      = (CxxValue.shift (fun a n => a * 2 ^ n) l r).map CxxValue.typed := by
  apply shiftValue_typed
  intro n
  rw [if_pos rfl, integerFromBits_eq_wrap]
  apply IntType.wrap_congr
  have hwidth : l.promote.kind.type.width = l.promote.kind.bits := rfl
  unfold maskBits
  rw [hwidth, Int.mul_emod, Int.emod_emod, ← Int.mul_emod]

theorem shiftValue_right (l r : CxxValue) :
    (shiftValue py label false l.typed r.typed).toOption
      = (CxxValue.shift (fun a n => a / 2 ^ n) l r).map CxxValue.typed := by
  apply shiftValue_typed
  intro n
  rw [if_neg (by simp),
    l.promote.kind.type.wrap_of_fits (ediv_pow_fits n l.promote.value.property)]
  cases hsigned : l.promote.kind.signed with
  | true => rw [if_pos rfl]
  | false =>
    rw [if_neg (by simp), maskBits_eq_wrap hsigned,
      l.promote.kind.type.wrap_of_fits l.promote.value.property]

theorem truncatingIntegerDivide_eq_tdiv (a b : Int) : truncatingIntegerDivide a b = a.tdiv b := by
  have habs : (a.tdiv b).natAbs = a.natAbs / b.natAbs := Int.natAbs_tdiv a b
  unfold truncatingIntegerDivide
  simp only
  rw [← habs]
  cases lt_or_ge a 0 with
  | inl ha =>
    cases lt_or_ge b 0 with
    | inl hb =>
      have hnonneg := Int.tdiv_nonneg_of_nonpos_of_nonpos (Int.le_of_lt ha) (Int.le_of_lt hb)
      rw [if_neg (by simp [ha, hb])]
      omega
    | inr hb =>
      have hneg := Int.tdiv_nonneg (a := -a) (by omega) hb
      rw [Int.neg_tdiv] at hneg
      rw [if_pos (by simp [ha, hb])]
      omega
  | inr ha =>
    cases lt_or_ge b 0 with
    | inl hb =>
      have hnonpos := Int.tdiv_nonpos_of_nonneg_of_nonpos ha (Int.le_of_lt hb)
      rw [if_pos (by simp [ha, hb])]
      omega
    | inr hb =>
      have hnonneg := Int.tdiv_nonneg ha hb
      rw [if_neg (by simp [Int.not_lt.mpr ha, Int.not_lt.mpr hb])]
      omega

/-- The one quotient of a signed type that leaves it. -/
theorem tdiv_fits_iff {kind : IntegerKind} (hsigned : kind.signed = true) {a b : Int}
    (ha : kind.type.Fits a) (hb : b ≠ 0) :
    kind.type.Fits (a.tdiv b) ↔ ¬ (a = kind.lower ∧ b = -1) := by
  have hbounds : kind.upper = -kind.lower - 1 ∧ kind.lower < 0 := by
    cases kind <;> first | (constructor <;> decide) | cases hsigned
  have hlow := ha.1
  have hhigh := ha.2
  rw [kind.type_lower] at hlow
  rw [kind.type_upper] at hhigh
  unfold IntType.Fits
  rw [kind.type_lower, kind.type_upper]
  by_cases hone : b = -1
  · rw [hone, Int.tdiv_neg, Int.tdiv_one]
    omega
  · by_cases hpos : b = 1
    · rw [hpos, Int.tdiv_one]
      omega
    · have hhalf : (a.tdiv b).natAbs ≤ a.natAbs / 2 := by
        rw [Int.natAbs_tdiv]
        exact Nat.div_le_div_left (by omega) (by decide)
      omega

/-- The quotient as the code computes it: truncated when signed, floored when not. -/
private theorem quotient_eq_tdiv {kind : IntegerKind} {a : Int} (ha : kind.type.Fits a) (b : Int) :
    (if kind.signed then truncatingIntegerDivide a b else a / b) = a.tdiv b := by
  cases hsigned : kind.signed with
  | true => exact truncatingIntegerDivide_eq_tdiv a b
  | false =>
    have hnonneg : 0 ≤ a := by
      have hlow := ha.1
      cases kind <;> first | exact hlow | cases hsigned
    exact (Int.tdiv_eq_ediv_of_nonneg hnonneg).symm

private theorem remainder_eq_tmod {kind : IntegerKind} {a : Int} (ha : kind.type.Fits a) (b : Int)
    (hb : kind.type.Fits b) :
    (if kind.signed then a - truncatingIntegerDivide a b * b else a % b) = a.tmod b := by
  cases hsigned : kind.signed with
  | true =>
    rw [if_pos rfl, truncatingIntegerDivide_eq_tdiv, Int.tmod_def, Int.mul_comm b]
  | false =>
    have hnonneg : ∀ x, kind.type.Fits x → 0 ≤ x := by
      intro x hx
      have hlow := hx.1
      cases kind <;> first | exact hlow | cases hsigned
    rw [if_neg (by simp), Int.tmod_eq_emod_of_nonneg (hnonneg a ha)]

theorem tmod_fits {kind : IntegerKind} {a b : Int} (ha : kind.type.Fits a) :
    kind.type.Fits (a.tmod b) := by
  have hlower : kind.type.lower ≤ 0 := by cases kind <;> decide
  have hupper : 0 ≤ kind.type.upper := by cases kind <;> decide
  have hlow := ha.1
  have hhigh := ha.2
  have habs : (a.tmod b).natAbs ≤ a.natAbs := by
    rw [Int.natAbs_tmod]
    exact Nat.mod_le _ _
  cases le_or_gt 0 a with
  | inl hnonneg =>
    have hmod := Int.tmod_nonneg b hnonneg
    constructor <;> omega
  | inr hneg =>
    have hmod := Int.tmod_nonneg (a := -a) b (by omega)
    rw [Int.neg_tmod] at hmod
    constructor <;> omega

private theorem fits_result {kind : IntegerKind} {x : Int} (h : kind.type.Fits x) :
    kind.type.result x = kind.type.exactly x := by
  have hexact : kind.type.exactly x = some ⟨x, h⟩ := by
    unfold IntType.exactly
    rw [dif_pos h]
  unfold IntType.result
  rw [hexact]
  split
  · rfl
  · exact congrArg some (Subtype.ext (kind.type.wrap_of_fits h))

/-- The check before a division rejects exactly the quotients without a value. -/
private theorem overflows_iff {kind : IntegerKind} {a b : Int} (ha : kind.type.Fits a)
    (hb : kind.type.Fits b) (hne : b ≠ 0) :
    (kind.signed = true ∧ signedDivisionOverflows a b kind = true) ↔ ¬ kind.type.Fits (a.tdiv b) := by
  cases hsigned : kind.signed with
  | true =>
    rw [tdiv_fits_iff hsigned ha hne]
    simp [signedDivisionOverflows]
  | false =>
    have hlower : kind.type.lower = 0 := by
      cases kind <;> first | rfl | cases hsigned
    have halow := ha.1
    have hblow := hb.1
    rw [hlower] at halow hblow
    have hquot := Int.tdiv_nonneg halow hblow
    have hle := Int.tdiv_le_self b halow
    have hhigh := ha.2
    have hfits : kind.type.Fits (a.tdiv b) := ⟨by omega, by omega⟩
    simp [hfits]

theorem divideIntegers_toOption {kind : IntegerKind} {a b : Int} (ha : kind.type.Fits a)
    (hb : kind.type.Fits b) (hne : b ≠ 0) :
    (divideIntegers py label kind a b).toOption =
      (kind.type.exactly (a.tdiv b)).map fun x => .number (.integer kind x.val) := by
  unfold divideIntegers
  simp only [quotient_eq_tdiv ha b]
  by_cases hfits : kind.type.Fits (a.tdiv b)
  · have hbind := toOption_bind (normalizeNumericResult label (a.tdiv b) kind)
      fun result => numericValue py (.integer kind result)
    rw [if_neg (mt (overflows_iff ha hb hne).mp (not_not.mpr hfits)), hbind,
      normalizeNumericResult_toOption, fits_result hfits]
    cases kind.type.exactly (a.tdiv b) <;> rfl
  · have hnone : kind.type.exactly (a.tdiv b) = none := by
      unfold IntType.exactly
      rw [dif_neg hfits]
    rw [if_pos ((overflows_iff ha hb hne).mpr hfits), hnone]
    rfl

theorem moduloIntegers_toOption {kind : IntegerKind} {a b : Int} (ha : kind.type.Fits a)
    (hb : kind.type.Fits b) (hne : b ≠ 0) :
    (moduloIntegers py label kind a b).toOption =
      (do
        let _ ← kind.type.exactly (a.tdiv b)
        let x ← kind.type.exactly (a.tmod b)
        return .number (.integer kind x.val)) := by
  unfold moduloIntegers
  simp only [remainder_eq_tmod ha b hb]
  by_cases hfits : kind.type.Fits (a.tdiv b)
  · have hbind := toOption_bind (normalizeNumericResult label (a.tmod b) kind)
      fun result => numericValue py (.integer kind result)
    have hquot : kind.type.exactly (a.tdiv b) = some ⟨a.tdiv b, hfits⟩ := by
      unfold IntType.exactly
      rw [dif_pos hfits]
    rw [if_neg (mt (overflows_iff ha hb hne).mp (not_not.mpr hfits)), hbind,
      normalizeNumericResult_toOption, fits_result (tmod_fits ha), hquot]
    cases kind.type.exactly (a.tmod b) <;> rfl
  · have hnone : kind.type.exactly (a.tdiv b) = none := by
      unfold IntType.exactly
      rw [dif_neg hfits]
    rw [if_pos ((overflows_iff ha hb hne).mpr hfits), hnone]
    rfl

theorem divide_typed (l r : CxxValue) :
    (divide py label true l.typed r.typed).toOption
      = (CxxValue.quotient l r).map CxxValue.typed := by
  unfold divide CxxValue.quotient
  rw [numericOperands_typed]
  simp only [bind, Except.bind, Bool.not_true, Bool.false_eq_true, if_false]
  by_cases hzero : (l.right r).val = 0
  · rw [if_pos hzero, if_pos hzero]
    rfl
  · rw [if_neg hzero, if_neg hzero,
      divideIntegers_toOption py label (l.left r).property (l.right r).property hzero,
      Option.map_map]
    rfl

theorem modulo_typed (l r : CxxValue) :
    (modulo py label true l.typed r.typed).toOption
      = (CxxValue.remainder l r).map CxxValue.typed := by
  unfold modulo CxxValue.remainder CxxValue.quotient
  rw [numericOperands_typed]
  simp only [bind, Except.bind, Bool.not_true, Bool.false_eq_true, if_false]
  by_cases hzero : (l.right r).val = 0
  · rw [if_pos hzero, if_pos hzero]
    rfl
  · rw [if_neg hzero, if_neg hzero,
      moduloIntegers_toOption py label (l.left r).property (l.right r).property hzero]
    cases (l.commonKind r).type.exactly ((l.left r).val.tdiv (l.right r).val) with
    | none => rfl
    | some q =>
      cases (l.commonKind r).type.exactly ((l.left r).val.tmod (l.right r).val) <;> rfl

theorem typed_ofInt_zero (kind : IntegerKind) :
    ((CxxValue.ofInt kind 0).typed : TypedValue F) = .number (.integer kind 0) := by
  have hzero : kind.type.Fits 0 := by cases kind <;> decide
  change TypedValue.number (.integer kind (kind.type.wrap 0)) = _
  rw [kind.type.wrap_of_fits hzero]

theorem typeOnlyValue_typed (v : CxxValue) :
    typeOnlyValue py v.typed = v.zero.typed := by
  cases v with
  | bool b => rfl
  | int x => exact (typed_ofInt_zero x.kind).symm

theorem divide_skipped (l r : CxxValue) :
    divide py label false l.typed r.typed
      = .ok (CxxValue.ofInt (l.commonKind r) 0).typed := by
  unfold divide
  rw [numericOperands_typed, typed_ofInt_zero]
  rfl

theorem modulo_skipped (l r : CxxValue) :
    modulo py label false l.typed r.typed
      = .ok (CxxValue.ofInt (l.commonKind r) 0).typed := by
  unfold modulo
  rw [numericOperands_typed, typed_ofInt_zero]
  rfl

theorem plus_typed (l r : CxxValue) :
    (plus py label l.typed r.typed).toOption
      = (CxxValue.arithmetic (· + ·) l r).map CxxValue.typed := by
  have hadd := numericBinary_typed py label (· + ·) py.add l r
  cases l <;> cases r <;> exact hadd

theorem unaryOperator_typed (op : UnaryOp) (v : CxxValue) :
    (unaryOperator py label op v.typed).toOption = (v.unary op).map CxxValue.typed := by
  cases op with
  | not =>
    rw [unaryOperator, logicalNot, expectBool_typed]
    rfl
  | complement => exact bitwiseComplement_typed py label v
  | plus =>
    have hbind := toOption_bind
      (normalizeNumericResult label v.promote.value.val v.promote.kind)
      fun result => numericValue py (.integer v.promote.kind result)
    have hexact : v.promote.kind.type.exactly v.promote.value.val = some v.promote.value :=
      IntType.exactly_eq_some _ |>.mpr rfl
    rw [unaryOperator, unaryPlus, expectNumeric_typed]
    refine hbind.trans ?_
    rw [normalizeNumericResult_toOption, fits_result v.promote.value.property, hexact]
    rfl
  | minus =>
    have hbind := toOption_bind
      (normalizeNumericResult label (-v.promote.value.val) v.promote.kind)
      fun result => numericValue py (.integer v.promote.kind result)
    rw [unaryOperator, unaryMinus, CxxValue.unary, expectNumeric_typed]
    refine hbind.trans ?_
    rw [normalizeNumericResult_toOption]
    cases v.promote.kind.type.result (-v.promote.value.val) <;> rfl

theorem evaluateScalarCast_typed (type : ScalarType) (v : CxxValue) :
    evaluateFunctionValue py label type.name [v.typed] = .ok (v.cast type).typed := by
  have hinteger : ∀ name kind, castToInteger py label name
      (.integer v.promote.kind v.promote.value.val) kind
        = .ok (.number (.integer kind (kind.type.wrap v.promote.value.val))) := by
    intro name kind
    rw [castToInteger, convertToInteger_self label v.promote.value.property]
    simp only [bind, Except.bind, integerFromBits_eq_wrap]
    rfl
  have hnumeric : ∀ name kind, evaluateScalarCast py label name (.numeric (.integer kind)) [v.typed]
      = .ok (.number (.integer kind (kind.type.wrap v.promote.value.val))) := by
    intro name kind
    have hcast : evaluateScalarCast py label name (.numeric (.integer kind)) [v.typed]
        = (do
          let n ← expectNumeric label v.typed
          castToInteger py label name n kind) := by
      cases v <;> rfl
    rw [hcast, expectNumeric_typed]
    exact hinteger name kind
  cases type with
  | bool =>
    have hcast : evaluateFunctionValue py label "bool" [v.typed]
        = (do return .bool (← expectBool py label v.typed)) := by
      cases v <;> rfl
    change evaluateFunctionValue py label "bool" [v.typed] = _
    rw [hcast, expectBool_typed]
    rfl
  | i32 => exact hnumeric "i32" .int32
  | u32 => exact hnumeric "u32" .uint32
  | i64 => exact hnumeric "i64" .int64
  | u64 => exact hnumeric "u64" .uint64

theorem evaluateFunction_typed (type : ScalarType) (v : CxxValue) :
    evaluateFunction py label type.name [v.typed] true = .ok (v.cast type).typed :=
  evaluateScalarCast_typed py label type v

theorem evaluateFunction_skipped (type : ScalarType) (v : CxxValue) :
    evaluateFunction py label type.name [v.typed] false = .ok (v.cast type).zero.typed := by
  have htype : evaluateFunction py label type.name [v.typed] false
      = (do return typeOnlyValue py (← evaluateFunctionValue py label type.name [v.typed])) := by
    cases type <;> rfl
  rw [htype, evaluateScalarCast_typed, ← typeOnlyValue_typed]
  rfl

/-- Whether the right operand is evaluated, where the left one has a value. -/
theorem rhsEvaluated_typed (op : BinaryOp) (evaluate : Bool) (l : CxxValue) :
    (binaryOperator py label op).rhsEvaluated evaluate l.typed
      = .ok (evaluate && (CxxValue.shortCircuit op l).isNone) := by
  have htruth := expectBool_typed py label l
  cases op
  case and =>
    have hmode : (binaryOperator py label .and).rhsEvaluated evaluate l.typed
        = (do return evaluate && (← expectBool py label l.typed)) := rfl
    rw [hmode, htruth]
    cases h : l.truth <;> simp [CxxValue.shortCircuit, h]
  case or =>
    have hmode : (binaryOperator py label .or).rhsEvaluated evaluate l.typed
        = (do return evaluate && !(← expectBool py label l.typed)) := rfl
    rw [hmode, htruth]
    cases h : l.truth <;> simp [CxxValue.shortCircuit, h]
  all_goals simp [binaryOperator, eager, CxxValue.shortCircuit, bitwiseOperator, compareOperator]

theorem bothBools_typed (combine : Bool → Bool → Bool) (evaluate : Bool) (l r : CxxValue) :
    bothBools py label combine evaluate l.typed r.typed
      = .ok (.bool (if !evaluate then false else combine l.truth r.truth)) := by
  unfold bothBools
  rw [expectBool_typed, expectBool_typed]
  rfl

/-- An operator on evaluated operands, or one that works the same on skipped ones. -/
theorem apply_typed (op : BinaryOp) (evaluate : Bool)
    (h : evaluate = true ∨ (op ≠ .and ∧ op ≠ .or ∧ op ≠ .div ∧ op ≠ .mod)) (l r : CxxValue) :
    ((binaryOperator py label op).apply evaluate l.typed r.typed).toOption
      = (CxxValue.binary op l r).map CxxValue.typed := by
  have hcompare := numericCompare_typed py label (l := l) (r := r)
  cases op
  case mul => exact numericBinary_typed py label (· * ·) py.mul l r
  case div =>
    obtain rfl | h := h
    · exact divide_typed py label l r
    · exact absurd rfl h.2.2.1
  case mod =>
    obtain rfl | h := h
    · exact modulo_typed py label l r
    · exact absurd rfl h.2.2.2
  case add => exact plus_typed py label l r
  case sub => exact numericBinary_typed py label (· - ·) py.sub l r
  case shiftLeft => exact shiftValue_left py label l r
  case shiftRight => exact shiftValue_right py label l r
  case equal =>
    simp only [binaryOperator, eager, compareEqual_typed]
    rfl
  case notEqual =>
    simp only [binaryOperator, eager, compareEqual_typed]
    simp [CxxValue.binary, CxxValue.compare, CxxValue.typed, bind, Except.bind, pure, Except.pure,
      Except.toOption]
  case bitAnd =>
    exact bitwiseBinary_typed py label (· &&& ·) (fun _ a b => a &&& b) (fun _ a b => by simp) l r
  case bitXor =>
    exact bitwiseBinary_typed py label (· ^^^ ·) (fun _ a b => a ^^^ b) (fun _ a b => by simp) l r
  case bitOr =>
    exact bitwiseBinary_typed py label (· ||| ·) (fun _ a b => a ||| b) (fun _ a b => by simp) l r
  case and =>
    obtain rfl | h := h
    · simp only [binaryOperator, andOperator, bothBools_typed]
      rfl
    · exact absurd rfl h.1
  case or =>
    obtain rfl | h := h
    · simp only [binaryOperator, orOperator, bothBools_typed]
      rfl
    · exact absurd rfl h.2.1
  all_goals
    simp only [binaryOperator, compareOperator, eager, hcompare]
    rfl

end Operations

end Protocyte.Constants
