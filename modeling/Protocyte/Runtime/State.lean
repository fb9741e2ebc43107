import Protocyte.Runtime.Reader

/-! What the runtime's functions share: an object with the context it is bound to, the reader a
parse takes its bytes from, and the recursion counter. State is kept on failure. -/
namespace Protocyte
open Foundation.Computation

/-- An object and the context it is bound to. -/
structure Bound (O : Type) where
  ctx : Context
  obj : O

/-- A parse into an object. -/
structure Parse (O : Type) extends Bound O where
  reader : Reader

abbrev BoundM (O : Type) := EStateM Error (Bound O)

abbrev ParseM (O : Type) := EStateM Error (Parse O)

variable {O α β σ : Type}

/-- A step that leaves the state alone. -/
def ofExcept {σ α : Type} : Except Error α → EStateM Error σ α
  | .ok a => pure a
  | .error e => throw e

theorem ofExcept_bind {x : Except Error α} {a : α} {f : α → EStateM Error σ β}
    (h : x = .ok a) : (ofExcept x >>= f) = f a := by
  rw [h]
  rfl

theorem ofExcept_eq_ok {x : Except Error α} {s s' : σ} {a : α} :
    (ofExcept x : EStateM Error σ α) s = .ok a s' ↔ x = .ok a ∧ s' = s := by
  cases x <;> simp [ofExcept, eq_comm]

/-- `with_field`: a failure names the field. -/
def withField (fieldNumber : ℕ) (x : EStateM Error σ α) : EStateM Error σ α := fun s =>
  match x s with
  | .ok a s' => .ok a s'
  | .error e s' => .error (e.withField fieldNumber) s'

@[simp] theorem withField_eq_ok {n : ℕ} {x : EStateM Error σ α} {s s' : σ} {a : α} :
    withField n x s = .ok a s' ↔ x s = .ok a s' := by
  unfold withField
  cases x s <;> simp

theorem withField_eq_error {n : ℕ} {x : EStateM Error σ α} {s s' : σ} {e : Error} :
    withField n x s = .error e s' ↔ ∃ e', x s = .error e' s' ∧ e = e'.withField n := by
  unfold withField
  cases x s with
  | ok a t => simp
  | error e' t =>
    simp only [EStateM.Result.error.injEq]
    constructor
    · rintro ⟨rfl, rfl⟩
      exact ⟨e', ⟨rfl, rfl⟩, rfl⟩
    · rintro ⟨e'', ⟨rfl, rfl⟩, rfl⟩
      exact ⟨rfl, rfl⟩

/-- A read of the parse's reader. -/
def onReader (x : ReaderM α) : ParseM O α := fun s =>
  match x s.reader with
  | .ok a r => .ok a { s with reader := r }
  | .error e r => .error e { s with reader := r }

theorem onReader_eq_ok {x : ReaderM α} {s s' : Parse O} {a : α} :
    onReader x s = .ok a s' ↔ ∃ r, x s.reader = .ok a r ∧ s' = { s with reader := r } := by
  unfold onReader
  cases x s.reader with
  | ok b r => simp [eq_comm]
  | error e r => simp

theorem onReader_eq_error {x : ReaderM α} {s s' : Parse O} {e : Error} :
    onReader x s = .error e s' ↔ ∃ r, x s.reader = .error e r ∧ s' = { s with reader := r } := by
  unfold onReader
  cases x s.reader with
  | ok b r => simp
  | error e' r => simp [eq_comm]

/-- An operation of the object that reads nothing. -/
def onBound (x : BoundM O α) : ParseM O α := fun s =>
  match x s.toBound with
  | .ok a b => .ok a { s with toBound := b }
  | .error e b => .error e { s with toBound := b }

theorem onBound_eq_ok {x : BoundM O α} {s s' : Parse O} {a : α} :
    onBound x s = .ok a s' ↔ ∃ b, x s.toBound = .ok a b ∧ s' = { s with toBound := b } := by
  unfold onBound
  cases x s.toBound with
  | ok b r => simp [eq_comm]
  | error e r => simp

theorem onBound_eq_error {x : BoundM O α} {s s' : Parse O} {e : Error} :
    onBound x s = .error e s' ↔ ∃ b, x s.toBound = .error e b ∧ s' = { s with toBound := b } := by
  unfold onBound
  cases x s.toBound with
  | ok b r => simp
  | error e' r => simp [eq_comm]

/-- `protocyte::unexpected(code, reader.position(), field_number)`. -/
def failField (code : ErrorCode) (fieldNumber : ℕ) : ParseM O α := fun s =>
  .error { code, offset := s.reader.position, fieldNumber } s

namespace Context

/-- The context after a request for one more level that is refused. -/
def refused (ctx : Context) : Context :=
  { ctx with deepest := max ctx.deepest (ctx.recursionDepth + 1) }

/-- The context one level down. -/
def descended (ctx : Context) : Context :=
  { ctx with
    recursionDepth := ctx.recursionDepth + 1
    deepest := max ctx.deepest (ctx.recursionDepth + 1)
    peak := max ctx.peak (ctx.recursionDepth + 1) }

def popRecursion (ctx : Context) : Context :=
  if ctx.recursionDepth ≠ 0 then { ctx with recursionDepth := ctx.recursionDepth - 1 } else ctx

@[simp] theorem descended_recursionDepth (ctx : Context) :
    ctx.descended.recursionDepth = ctx.recursionDepth + 1 := rfl

@[simp] theorem descended_limits (ctx : Context) : ctx.descended.limits = ctx.limits := rfl

@[simp] theorem popRecursion_limits (ctx : Context) : ctx.popRecursion.limits = ctx.limits := by
  unfold popRecursion
  split <;> rfl

@[simp] theorem popRecursion_grants (ctx : Context) : ctx.popRecursion.grants = ctx.grants := by
  unfold popRecursion
  split <;> rfl

@[simp] theorem popRecursion_recursionDepth (ctx : Context) :
    ctx.popRecursion.recursionDepth = ctx.recursionDepth - 1 := by
  unfold popRecursion
  split
  · rfl
  · omega

/-- Down one level, on to level `n` and back: the counter is restored. -/
theorem popRecursion_visited_descended (ctx : Context) (n : ℕ) :
    (ctx.descended.visited n).popRecursion = ctx.visited (max (ctx.recursionDepth + 1) n) := by
  simp [popRecursion, descended, visited, Nat.max_assoc]

/-- `ctx'` is `ctx` after a run that took its levels back: allocations, and a history. -/
def Ran (ctx ctx' : Context) : Prop :=
  ∃ c n, ctx.Spent c ∧ n ≤ ctx.limits.maxRecursionDepth ∧ ctx' = c.visited n

/-- What even a failing run gives back. -/
structure Balanced (ctx ctx' : Context) : Prop where
  limits : ctx'.limits = ctx.limits
  recursionDepth : ctx'.recursionDepth = ctx.recursionDepth

theorem Spent.ran {ctx ctx' : Context} (h : ctx.Spent ctx') : ctx.Ran ctx' :=
  ⟨ctx', 0, h, Nat.zero_le _, by simp⟩

theorem Ran.refl (ctx : Context) : ctx.Ran ctx := (Spent.refl ctx).ran

theorem Spent.balanced {ctx ctx' : Context} (h : ctx.Spent ctx') : ctx.Balanced ctx' := by
  obtain ⟨k, rfl⟩ := h
  exact ⟨rfl, rfl⟩

theorem Ran.balanced {ctx ctx' : Context} (h : ctx.Ran ctx') : ctx.Balanced ctx' := by
  obtain ⟨c, n, ⟨k, rfl⟩, -, rfl⟩ := h
  exact ⟨rfl, rfl⟩

theorem Balanced.refl (ctx : Context) : ctx.Balanced ctx := ⟨rfl, rfl⟩

theorem Balanced.trans {c₁ c₂ c₃ : Context} (h : c₁.Balanced c₂) (h' : c₂.Balanced c₃) :
    c₁.Balanced c₃ :=
  ⟨h'.limits.trans h.limits, h'.recursionDepth.trans h.recursionDepth⟩

theorem Ran.alwaysGrants {ctx ctx' : Context} (h : ctx.Ran ctx') (hg : ctx.AlwaysGrants) :
    ctx'.AlwaysGrants := by
  obtain ⟨c, n, hs, -, rfl⟩ := h
  exact hs.alwaysGrants hg

theorem Ran.trans {c₁ c₂ c₃ : Context} (h : c₁.Ran c₂) (h' : c₂.Ran c₃) : c₁.Ran c₃ := by
  obtain ⟨_, m, ⟨j, rfl⟩, hm, rfl⟩ := h
  obtain ⟨_, n, ⟨k, rfl⟩, hn, rfl⟩ := h'
  refine ⟨_, max m n, ⟨k + j, rfl⟩, Nat.max_le.mpr ⟨hm, hn⟩, ?_⟩
  simp [visited, Nat.max_assoc, Nat.add_assoc]

/-- A run one level down, and back. -/
theorem Ran.pop {ctx ctx' : Context} (h : ctx.descended.Ran ctx')
    (hd : ctx.recursionDepth < ctx.limits.maxRecursionDepth) : ctx.Ran ctx'.popRecursion := by
  obtain ⟨_, n, ⟨k, rfl⟩, hn, rfl⟩ := h
  refine ⟨_, max (ctx.recursionDepth + 1) n, ⟨k, rfl⟩, Nat.max_le.mpr ⟨hd, hn⟩, ?_⟩
  simp [popRecursion, descended, visited, Nat.max_assoc]

theorem Balanced.pop {ctx ctx' : Context} (h : ctx.descended.Balanced ctx') :
    ctx.Balanced ctx'.popRecursion := by
  refine ⟨?_, ?_⟩
  · rw [popRecursion_limits, h.limits, descended_limits]
  · rw [popRecursion_recursionDepth, h.recursionDepth, descended_recursionDepth]
    rfl

theorem balanced_refused (ctx : Context) : ctx.Balanced ctx.refused := ⟨rfl, rfl⟩

end Context

def pushRecursion (fieldNumber : ℕ) : ParseM O Unit := fun s =>
  if s.ctx.recursionDepth ≥ s.ctx.limits.maxRecursionDepth then
    .error { code := .recursionLimit, offset := s.reader.position, fieldNumber }
      { s with ctx := s.ctx.refused }
  else
    .ok () { s with ctx := s.ctx.descended }

def popRecursion : ParseM O Unit := modify fun s => { s with ctx := s.ctx.popRecursion }

theorem pushRecursion_eq_ok {n : ℕ} {s s' : Parse O} :
    pushRecursion n s = .ok () s' ↔ s.ctx.recursionDepth < s.ctx.limits.maxRecursionDepth ∧
      s' = { s with ctx := s.ctx.descended } := by
  unfold pushRecursion
  by_cases h : s.ctx.recursionDepth ≥ s.ctx.limits.maxRecursionDepth
  · simp [h, Nat.not_lt.mpr h]
  · simp [h, Nat.lt_of_not_le h, eq_comm]

@[simp] theorem popRecursion_apply (s : Parse O) :
    popRecursion s = .ok () { s with ctx := s.ctx.popRecursion } := rfl

/-- A computation on a temporary bound to the same context. A failure discards the temporary. -/
def onTemporary {O T α : Type} (init : T) (x : BoundM T α) : BoundM O (α × T) := fun s =>
  match x { ctx := s.ctx, obj := init } with
  | .ok a t => .ok (a, t.obj) { s with ctx := t.ctx }
  | .error e t => .error e { s with ctx := t.ctx }

/-- `*this = move(other)`. -/
def moveAssign {O : Type} (obj : O) : BoundM O Unit := modify fun s => { s with obj }

theorem onTemporary_exits {O T α : Type} {init : T} {x : BoundM T α} {s : Bound O}
    {Q : α → Bound T → Prop} {E : Error → Bound T → Prop}
    (h : Exits (x { ctx := s.ctx, obj := init }) Q E) :
    Exits (onTemporary init x s)
      (fun p s' => Q p.1 { ctx := s'.ctx, obj := p.2 } ∧ s'.obj = s.obj)
      (fun e s' => (∃ t, E e { ctx := s'.ctx, obj := t }) ∧ s'.obj = s.obj) := by
  unfold onTemporary
  cases hx : x { ctx := s.ctx, obj := init } with
  | ok a t => exact ⟨h.ok hx, rfl⟩
  | error e t => exact ⟨⟨t.obj, h.error hx⟩, rfl⟩

end Protocyte
