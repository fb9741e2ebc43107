import Protocyte.Foundation.Computation

/-! Errors, limits and the parse context. Sizes are 64-bit; allocation is an oracle, so every
pattern of allocation failures is some context. -/
namespace Protocyte

/-- `diverged` is no enumerator of the source: it is the exit of a model loop whose iteration
bound ran out, which no execution reaches. -/
inductive ErrorCode
  | noMemory
  | invalidArgument
  | malformedVarint
  | unexpectedEof
  | invalidWireType
  | invalidUtf8
  | recursionLimit
  | sizeLimit
  | countLimit
  | integerOverflow
  | diverged
  deriving DecidableEq, Repr

structure Error where
  code : ErrorCode
  offset : ℕ := 0
  fieldNumber : ℕ := 0
  deriving DecidableEq, Repr

def Error.withField (e : Error) (fieldNumber : ℕ) : Error := { e with fieldNumber }

@[simp] theorem Error.withField_code (e : Error) (n : ℕ) : (e.withField n).code = e.code := rfl

/-- A failure for want of memory or room. -/
def Error.IsLimit (e : Error) : Prop :=
  e.code ∈ [.noMemory, .sizeLimit, .countLimit, .integerOverflow]

theorem Error.IsLimit.not_diverged {e : Error} (h : e.IsLimit) : e.code ≠ .diverged := by
  intro hd
  simp [Error.IsLimit, hd] at h

theorem Error.IsLimit.not_recursionLimit {e : Error} (h : e.IsLimit) :
    e.code ≠ .recursionLimit := by
  intro hd
  simp [Error.IsLimit, hd] at h

abbrev usizeMax : ℕ := 2 ^ 64 - 1

/-- `lhs + rhs` wraps in `usize`; the wrapped sum is smaller than either operand. -/
def checkedAdd (lhs rhs : ℕ) : Except Error ℕ :=
  let value := (lhs + rhs) % (usizeMax + 1)
  if value < lhs then .error { code := .integerOverflow } else .ok value

def checkedMul (lhs rhs : ℕ) : Except Error ℕ :=
  if lhs ≠ 0 ∧ rhs > usizeMax / lhs then .error { code := .integerOverflow }
  else .ok (lhs * rhs % (usizeMax + 1))

theorem checkedAdd_of_le {lhs rhs : ℕ} (h : lhs + rhs ≤ usizeMax) :
    checkedAdd lhs rhs = .ok (lhs + rhs) := by
  have hm : (lhs + rhs) % (usizeMax + 1) = lhs + rhs := Nat.mod_eq_of_lt (Nat.lt_succ_of_le h)
  simp only [checkedAdd, hm]
  rw [if_neg (Nat.not_lt.mpr (Nat.le_add_right lhs rhs))]

theorem checkedAdd_of_gt {lhs rhs : ℕ} (hl : lhs ≤ usizeMax) (hr : rhs ≤ usizeMax)
    (h : usizeMax < lhs + rhs) : checkedAdd lhs rhs = .error { code := .integerOverflow } := by
  have hm : (lhs + rhs) % (usizeMax + 1) = lhs + rhs - (usizeMax + 1) := by
    rw [Nat.mod_eq_sub_mod (by omega), Nat.mod_eq_of_lt (by omega)]
  simp only [checkedAdd, hm]
  rw [if_pos (by omega)]

structure Limits where
  maxTotalBytes : ℕ := 0x7fffffff
  maxRecursionDepth : ℕ := 100
  maxMessageBytes : ℕ := 0x7fffffff
  maxStringBytes : ℕ := 0x7fffffff
  maxRepeatedElements : ℕ := 0x7fffffff
  maxMapEntries : ℕ := 0x7fffffff
  maxUnknownFieldBytes : ℕ := 0x7fffffff
  maxUnknownFieldBytes_le : maxUnknownFieldBytes ≤ usizeMax := by decide

theorem unknownFieldBytes_le : 0x7fffffff ≤ usizeMax := by decide

/-- `grants i` tells whether the `i`-th allocation still to come succeeds. `deepest` and `peak`
are history variables no function reads: the deepest nesting level asked for so far, and the
largest value `recursionDepth` has had. -/
structure Context where
  limits : Limits := {}
  recursionDepth : ℕ := 0
  deepest : ℕ := 0
  peak : ℕ := 0
  grants : ℕ → Bool := fun _ => true

namespace Context

/-- Every allocation of the context succeeds. -/
def AlwaysGrants (ctx : Context) : Prop := ∀ i, ctx.grants i = true

/-- `Config::allocate` returning a block, or not. -/
def allocate (ctx : Context) : Bool × Context :=
  (ctx.grants 0, { ctx with grants := fun i => ctx.grants (i + 1) })

/-- `ctx'` is `ctx` after some allocations. -/
def Spent (ctx ctx' : Context) : Prop :=
  ∃ k, ctx' = { ctx with grants := fun i => ctx.grants (i + k) }

theorem Spent.refl (ctx : Context) : Spent ctx ctx := ⟨0, rfl⟩

theorem Spent.trans {c₁ c₂ c₃ : Context} (h : Spent c₁ c₂) (h' : Spent c₂ c₃) : Spent c₁ c₃ := by
  obtain ⟨j, rfl⟩ := h
  obtain ⟨k, rfl⟩ := h'
  exact ⟨k + j, by simp only [Nat.add_assoc]⟩

theorem Spent.alwaysGrants {ctx ctx' : Context} (h : Spent ctx ctx') (hg : ctx.AlwaysGrants) :
    ctx'.AlwaysGrants := by
  obtain ⟨k, rfl⟩ := h
  exact fun i => hg (i + k)

theorem Spent.limits {ctx ctx' : Context} (h : Spent ctx ctx') : ctx'.limits = ctx.limits := by
  obtain ⟨k, rfl⟩ := h
  rfl

theorem spent_allocate (ctx : Context) : Spent ctx ctx.allocate.2 := ⟨1, rfl⟩

/-- The history of a context that has been down to level `n` and back. -/
def visited (n : ℕ) (ctx : Context) : Context :=
  { ctx with deepest := max ctx.deepest n, peak := max ctx.peak n }

@[simp] theorem visited_zero (ctx : Context) : ctx.visited 0 = ctx := by simp [visited]

theorem visited_visited (m n : ℕ) (ctx : Context) :
    (ctx.visited m).visited n = ctx.visited (max m n) := by
  simp [visited, Nat.max_assoc]

end Context

end Protocyte
