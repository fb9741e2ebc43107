import Protocyte.Codec.Parse

/-! How a parse ends: what both exits leave of the context, the reader and the object, and how this
goes through the combinators. -/
namespace Protocyte
open Foundation.Computation

namespace Context

/-- A run that asked for a level beyond the limit. -/
structure Exceeded (ctx ctx' : Context) : Prop where
  balanced : ctx.Balanced ctx'
  peak : ctx'.peak ≤ max ctx.peak ctx.limits.maxRecursionDepth
  deepest : ctx.limits.maxRecursionDepth < ctx'.deepest

/-- A failing run. It fails for its nesting when it asked for too many levels, and only then; where
the model gives up, `D` holds. -/
def Failed (D : Prop) (ctx : Context) (e : Error) (ctx' : Context) : Prop :=
  e.code = .recursionLimit ∧ ctx.Exceeded ctx' ∨
    e.code ≠ .recursionLimit ∧ ctx.Ran ctx' ∧ (e.code = .diverged → D)

variable {D D' : Prop} {e e' : Error} {c₁ c₂ c₃ : Context}

theorem Ran.peak_le (h : c₁.Ran c₂) : c₂.peak ≤ max c₁.peak c₁.limits.maxRecursionDepth := by
  obtain ⟨_, n, ⟨k, rfl⟩, hn, rfl⟩ := h
  exact Nat.max_le.mpr ⟨Nat.le_max_left _ _, Nat.le_trans hn (Nat.le_max_right _ _)⟩

theorem Ran.deepest_le (h : c₁.Ran c₂) :
    c₂.deepest ≤ max c₁.deepest c₁.limits.maxRecursionDepth := by
  obtain ⟨_, n, ⟨k, rfl⟩, hn, rfl⟩ := h
  exact Nat.max_le.mpr ⟨Nat.le_max_left _ _, Nat.le_trans hn (Nat.le_max_right _ _)⟩

theorem Exceeded.of_ran (h : c₁.Ran c₂) (h' : c₂.Exceeded c₃) : c₁.Exceeded c₃ := by
  have hlimits := h.balanced.limits
  have hpeak := h'.peak
  have hdeepest := h'.deepest
  rw [hlimits] at hpeak hdeepest
  refine ⟨h.balanced.trans h'.balanced, Nat.le_trans hpeak ?_, hdeepest⟩
  exact Nat.max_le.mpr ⟨h.peak_le, Nat.le_max_right _ _⟩

theorem Exceeded.spent (h : c₁.Exceeded c₂) (h' : c₂.Spent c₃) : c₁.Exceeded c₃ := by
  obtain ⟨k, rfl⟩ := h'
  exact ⟨h.balanced.trans ⟨rfl, rfl⟩, h.peak, h.deepest⟩

/-- A run one level down that asked for too many levels. -/
theorem Exceeded.pop {ctx ctx' : Context} (h : ctx.descended.Exceeded ctx')
    (hd : ctx.recursionDepth < ctx.limits.maxRecursionDepth) : ctx.Exceeded ctx'.popRecursion := by
  have hpeak : ctx'.popRecursion.peak = ctx'.peak := by
    unfold popRecursion
    split <;> rfl
  have hdeepest : ctx'.popRecursion.deepest = ctx'.deepest := by
    unfold popRecursion
    split <;> rfl
  have hdescended : ctx.descended.peak = max ctx.peak (ctx.recursionDepth + 1) := rfl
  have hle := h.peak
  rw [hdescended, descended_limits] at hle
  refine ⟨h.balanced.pop, ?_, ?_⟩
  · rw [hpeak]
    omega
  · rw [hdeepest]
    exact h.deepest

theorem exceeded_refused {ctx : Context}
    (h : ctx.limits.maxRecursionDepth ≤ ctx.recursionDepth) : ctx.Exceeded ctx.refused :=
  ⟨ctx.balanced_refused, Nat.le_max_left _ _,
    Nat.lt_of_lt_of_le (Nat.lt_succ_of_le h) (Nat.le_max_right _ _)⟩

namespace Failed

theorem of_ran (h : c₁.Ran c₂) (h' : c₂.Failed D e c₃) : c₁.Failed D e c₃ := by
  rcases h' with ⟨he, hx⟩ | ⟨he, hr, hd⟩
  · exact .inl ⟨he, .of_ran h hx⟩
  · exact .inr ⟨he, h.trans hr, hd⟩

theorem spent (h : c₁.Failed D e c₂) (h' : c₂.Spent c₃) : c₁.Failed D e c₃ := by
  rcases h with ⟨he, hx⟩ | ⟨he, hr, hd⟩
  · exact .inl ⟨he, hx.spent h'⟩
  · exact .inr ⟨he, hr.trans h'.ran, hd⟩

theorem mono (h : c₁.Failed D e c₂) (hD : D → D') : c₁.Failed D' e c₂ := by
  rcases h with hx | ⟨he, hr, hd⟩
  · exact .inl hx
  · exact .inr ⟨he, hr, fun h => hD (hd h)⟩

theorem congr_code (h : c₁.Failed D e c₂) (he : e'.code = e.code) : c₁.Failed D e' c₂ := by
  unfold Failed at h ⊢
  rw [he]
  exact h

theorem pop {ctx ctx' : Context} (h : ctx.descended.Failed D e ctx')
    (hd : ctx.recursionDepth < ctx.limits.maxRecursionDepth) :
    ctx.Failed D e ctx'.popRecursion := by
  rcases h with ⟨he, hx⟩ | ⟨he, hr, hD⟩
  · exact .inl ⟨he, hx.pop hd⟩
  · exact .inr ⟨he, hr.pop hd, hD⟩

theorem of_spent (h : c₁.Spent c₂) (hr : e.code ≠ .recursionLimit) (hd : e.code ≠ .diverged) :
    c₁.Failed D e c₂ :=
  .inr ⟨hr, h.ran, fun he => absurd he hd⟩

end Failed

/-- The context has more levels left than a message of `n` levels can nest. -/
def Shallow (n : ℕ) (ctx : Context) : Prop :=
  n ≤ 1 ∨ ctx.recursionDepth + n ≤ ctx.limits.maxRecursionDepth + 1

theorem Balanced.shallow_iff (h : c₁.Balanced c₂) (n : ℕ) : c₂.Shallow n ↔ c₁.Shallow n := by
  unfold Shallow
  rw [h.limits, h.recursionDepth]

theorem Shallow.of_descended {n : ℕ} {ctx : Context} (h : ctx.descended.Shallow n)
    (hd : ctx.recursionDepth < ctx.limits.maxRecursionDepth) : ctx.Shallow (n + 1) := by
  unfold Shallow at h ⊢
  rw [descended_limits, descended_recursionDepth] at h
  omega

end Context

variable {O P T α β : Type}

/-- The parse goes on: levels taken are given back, and the reader has moved. -/
structure Advanced (s : Parse O) (t : Parse P) : Prop where
  ctx : s.ctx.Ran t.ctx
  reader : ∃ k, s.reader.Moved t.reader k

namespace Advanced

variable {s : Parse O} {t : Parse P} {u : Parse T}

theorem refl (s : Parse O) : Advanced s s := ⟨.refl _, 0, .refl _⟩

theorem trans (h : Advanced s t) (h' : Advanced t u) : Advanced s u := by
  obtain ⟨j, hj⟩ := h.reader
  obtain ⟨k, hk⟩ := h'.reader
  exact ⟨h.ctx.trans h'.ctx, j + k, hj.trans hk⟩

theorem rest_le (h : Advanced s t) : t.reader.rest.length ≤ s.reader.rest.length := by
  obtain ⟨k, hk⟩ := h.reader
  rw [hk.rest, List.length_drop]
  exact Nat.sub_le _ _

end Advanced

/-- Both exits of a parse: `Q` relates the object before and after a success, `E` before and after a
failure. -/
def ContractAt (D : Prop) (E : O → O → Prop) (Q : O → α → O → Prop) (x : ParseM O α)
    (s : Parse O) : Prop :=
  Exits (x s) (fun a t => Advanced s t ∧ Q s.obj a t.obj)
    (fun e t => s.ctx.Failed D e t.ctx ∧ E s.obj t.obj)

/-- The exits of the emitted code of a message of `n` levels. -/
def Contract (n : ℕ) (E : O → O → Prop) (Q : O → α → O → Prop) (x : ParseM O α) : Prop :=
  ∀ s, ContractAt (s.ctx.Shallow n) E Q x s

def Unchanged (o o' : O) : Prop := o' = o

def Anything (_ _ : O) : Prop := True

/-- The parse leaves the object alone. -/
abbrev Quiet (n : ℕ) (x : ParseM O α) : Prop :=
  Contract n Unchanged (fun o _ o' => Unchanged o o') x

/-- A failure leaves the object alone. -/
abbrev Atomic (n : ℕ) (x : ParseM O α) : Prop :=
  Contract n Unchanged (fun o _ o' => Anything o o') x

/-- The object may be left in any state. -/
abbrev Runs (n : ℕ) (x : ParseM O α) : Prop :=
  Contract n Anything (fun o _ o' => Anything o o') x

namespace ContractAt

variable {D D' : Prop} {E E' : O → O → Prop} {Q Q' : O → α → O → Prop} {R : O → β → O → Prop}
variable {x : ParseM O α} {s : Parse O}

theorem mono (h : ContractAt D E Q x s) (hD : D → D') (hE : ∀ o o', E o o' → E' o o')
    (hQ : ∀ o a o', Q o a o' → Q' o a o') : ContractAt D' E' Q' x s :=
  Exits.mono h (fun _ _ ha => ⟨ha.1, hQ _ _ _ ha.2⟩) fun _ _ he => ⟨he.1.mono hD, hE _ _ he.2⟩

theorem bind {f : α → ParseM O β} (hx : ContractAt D E Q x s)
    (hf : ∀ a t, Advanced s t → Q s.obj a t.obj →
      Exits (f a t) (fun b u => Advanced t u ∧ R s.obj b u.obj)
        (fun e u => t.ctx.Failed D e u.ctx ∧ E s.obj u.obj)) :
    ContractAt D E R (x >>= f) s := by
  refine Exits.bind (Exits.mono hx (fun _ _ h => h) fun _ _ h => h) ?_
  intro a t ⟨hadvanced, ha⟩
  refine (hf a t hadvanced ha).mono ?_ ?_
  · exact fun _ _ h => ⟨hadvanced.trans h.1, h.2⟩
  · exact fun _ _ h => ⟨.of_ran hadvanced.ctx h.1, h.2⟩

end ContractAt

namespace Contract

variable {n : ℕ} {E E' : O → O → Prop} {Q Q' : O → α → O → Prop} {R : O → β → O → Prop}
variable {x : ParseM O α}

theorem mono (h : Contract n E Q x) (hE : ∀ o o', E o o' → E' o o')
    (hQ : ∀ o a o', Q o a o' → Q' o a o') : Contract n E' Q' x :=
  fun s => (h s).mono id hE hQ

/-- A limit on more levels is one on fewer. -/
theorem weaken (h : Contract (n + 1) E Q x) : Contract n E Q x := by
  intro s
  refine (h s).mono ?_ (fun _ _ h => h) fun _ _ _ h => h
  unfold Context.Shallow
  omega

theorem atomic (h : Contract n Unchanged Q x) : Atomic n x :=
  h.mono (fun _ _ h => h) fun _ _ _ _ => trivial

theorem runs (h : Contract n E Q x) : Runs n x :=
  h.mono (fun _ _ _ => trivial) fun _ _ _ _ => trivial

/-- One parse after the other. -/
theorem bind {f : α → ParseM O β} {F : α → O → O → Prop} {R' : α → O → β → O → Prop}
    (hx : Contract n E Q x) (hf : ∀ a, Contract n (F a) (R' a) (f a))
    (hE : ∀ o a m o', Q o a m → F a m o' → E o o')
    (hR : ∀ o a m b o', Q o a m → R' a m b o' → R o b o') : Contract n E R (x >>= f) := by
  intro s
  refine ContractAt.bind (hx s) ?_
  intro a t hadvanced ha
  have hat := hf a t
  refine Exits.mono hat ?_ ?_
  · exact fun b u h => ⟨h.1, hR _ _ _ _ _ ha h.2⟩
  · intro e u h
    refine ⟨h.1.mono ?_, hE _ _ _ _ ha h.2⟩
    exact (hadvanced.ctx.balanced.shallow_iff n).mp

theorem assoc {f : α → ParseM O β} {g : β → ParseM O T} {R : O → T → O → Prop}
    (h : Contract n E R ((x >>= f) >>= g)) : Contract n E R (x >>= fun a => f a >>= g) := by
  rw [bind_assoc] at h
  exact h

theorem bind_anything {f : α → ParseM O β} {F : α → O → O → Prop} (hx : Contract n E Q x)
    (hf : ∀ a, Contract n (F a) (fun o _ o' => Anything o o') (f a))
    (hE : ∀ o a m o', Q o a m → F a m o' → E o o') :
    Contract n E (fun o _ o' => Anything o o') (x >>= f) :=
  hx.bind hf hE fun _ _ _ _ _ _ _ => trivial

/-- A parse, and then steps that cannot fail. -/
theorem bind_sure {f : α → ParseM O β} {R' : α → O → β → O → Prop} (hx : Contract n E Q x)
    (hf : ∀ a, Contract n (fun _ _ => False) (R' a) (f a))
    (hR : ∀ o a m b o', Q o a m → R' a m b o' → R o b o') : Contract n E R (x >>= f) :=
  hx.bind hf (fun _ _ _ _ _ h => h.elim) hR

theorem quiet_bind {f : α → ParseM O β} (hx : Quiet n x) (hE : ∀ o, E o o)
    (hf : ∀ a, Contract n E R (f a)) : Contract n E R (x >>= f) := by
  have hx' : Contract n E (fun o _ o' => Unchanged o o') x := by
    refine hx.mono ?_ fun _ _ _ h => h
    intro o o' h
    rw [h]
    exact hE o
  refine hx'.bind hf ?_ ?_
  · intro o a m o' hm h
    rw [hm] at h
    exact h
  · intro o a m b o' hm h
    rw [hm] at h
    exact h

end Contract

namespace Quiet

variable {n : ℕ} {x : ParseM O α} {R : O → β → O → Prop}

theorem bind {f : α → ParseM O β} (hx : Quiet n x)
    (hf : ∀ a, Contract n Unchanged R (f a)) : Contract n Unchanged R (x >>= f) :=
  Contract.quiet_bind hx (fun _ => rfl) hf

theorem bind_runs {f : α → ParseM O β} (hx : Quiet n x) (hf : ∀ a, Runs n (f a)) :
    Runs n (x >>= f) :=
  Contract.quiet_bind hx (fun _ => trivial) hf

end Quiet

theorem Runs.bind {n : ℕ} {x : ParseM O α} {f : α → ParseM O β} (hx : Runs n x)
    (hf : ∀ a, Runs n (f a)) : Runs n (x >>= f) :=
  Contract.bind hx hf (fun _ _ _ _ _ _ => trivial) fun _ _ _ _ _ _ _ => trivial

/-- Reads that only move the reader, and do not fail for nesting. -/
def Moves (x : ReaderM α) : Prop := ∀ r, Exits (x r) (fun _ r' => ∃ k, r.Moved r' k)
  (fun e _ => e.code ≠ .recursionLimit ∧ e.code ≠ .diverged)

theorem Forward.moves {x : ReaderM α} (h : Forward x) : Moves x := by
  intro r
  refine Exits.intro ?_ ?_
  · intro a r' hr
    obtain ⟨k, hk, rfl⟩ := h.ok hr
    exact ⟨k, .advance hk⟩
  · intro e r' hr
    have hcode := (h.error hr).2
    simp only [List.mem_cons, List.not_mem_nil, or_false] at hcode
    rcases hcode with h | h | h | h | h <;> rw [h] <;> decide

theorem consume_moves (budget : Reader.Budget) (count fieldNumber : ℕ) :
    Moves (Reader.consume budget count fieldNumber) := by
  intro r
  refine (Reader.consume_exits budget count fieldNumber r).mono ?_ ?_
  · exact fun _ _ h => ⟨0, .of_uncounted h⟩
  · rintro e r' ⟨-, he⟩
    rw [he]
    decide

/-- What is got is the parse as it is there. -/
theorem ContractAt.get_bind {D : Prop} {E : O → O → Prop} {Q : O → α → O → Prop} {s : Parse O}
    {f : Parse O → ParseM O α} (hf : ContractAt D E Q (f s) s) :
    ContractAt D E Q (MonadState.get >>= f) s := hf

theorem ContractAt.ofExcept_bind {D : Prop} {E : O → O → Prop} {R : O → β → O → Prop} {s : Parse O}
    {r : Except Error α} {a : α} {g : α → ParseM O β} (hr : r = .ok a)
    (hg : ContractAt D E R (g a) s) : ContractAt D E R (ofExcept r >>= g) s := by
  rw [hr]
  exact hg

/-- A step that only fails, or gives a value. -/
theorem ContractAt.excepted {D : Prop} {E : O → O → Prop} {R : O → β → O → Prop} {s : Parse O}
    {r : Except Error α} {g : α → ParseM O β} (fieldNumber : ℕ) (hE : E s.obj s.obj)
    (herr : ∀ e, r = .error e → e.code ≠ .recursionLimit ∧ e.code ≠ .diverged)
    (hok : ∀ a, r = .ok a → ContractAt D E R (g a) s) :
    ContractAt D E R (withField fieldNumber (ofExcept r) >>= g) s := by
  cases r with
  | ok a => exact hok a rfl
  | error e =>
    obtain ⟨hr, hd⟩ := herr e rfl
    exact ⟨.of_spent (.refl _) hr hd, hE⟩

theorem ContractAt.onReader {D : Prop} {x : ReaderM α} (hx : Moves x) (s : Parse O) :
    ContractAt D Unchanged (fun o _ o' => Unchanged o o') (onReader x) s := by
  refine Exits.intro ?_ ?_
  · intro a t h
    obtain ⟨r, hr, rfl⟩ := onReader_eq_ok.mp h
    exact ⟨⟨.refl _, (hx s.reader).ok hr⟩, rfl⟩
  · intro e t h
    obtain ⟨r, hr, rfl⟩ := onReader_eq_error.mp h
    obtain ⟨hlimit, hdiverged⟩ := (hx s.reader).error hr
    exact ⟨.of_spent (.refl _) hlimit hdiverged, rfl⟩

theorem Lens.set_unchanged (l : Lens O P) {o : O} {p : P} (h : Unchanged (l.get o) p) :
    Unchanged o (l.set p o) := by
  rw [h]
  exact l.set_get o

namespace Contract

variable {n : ℕ} {E E' : O → O → Prop} {Q Q' : O → α → O → Prop} {x : ParseM O α}

theorem pure (a : α) (hQ : ∀ o, Q o a o) : Contract n E Q (Pure.pure a) :=
  fun s => ⟨.refl s, hQ s.obj⟩

theorem get : Quiet n (MonadState.get : ParseM O (Parse O)) := fun s => ⟨.refl s, rfl⟩

theorem get_bind {f : Parse O → ParseM O α} (hf : ∀ s, ContractAt (s.ctx.Shallow n) E Q (f s) s) :
    Contract n E Q (MonadState.get >>= f) := fun s => .get_bind (hf s)

theorem ite {c : Prop} [Decidable c] {y : ParseM O α} (hx : c → Contract n E Q x)
    (hy : ¬c → Contract n E Q y) : Contract n E Q (if c then x else y) := by
  split
  · exact hx ‹_›
  · exact hy ‹_›

theorem failField {code : ErrorCode} (fieldNumber : ℕ) (hr : code ≠ .recursionLimit)
    (hd : code ≠ .diverged) (hE : ∀ o, E o o) : Contract n E Q (failField code fieldNumber) :=
  fun s => ⟨.of_spent (.refl _) hr hd, hE s.obj⟩

theorem modifying (f : Parse O → Parse O) (hf : ∀ s, (f s).ctx = s.ctx ∧ (f s).reader = s.reader)
    {Q : O → Unit → O → Prop} (hQ : ∀ s, Q s.obj () (f s).obj) :
    Contract n E Q (modify f : ParseM O Unit) := by
  intro s
  obtain ⟨hctx, hreader⟩ := hf s
  refine ⟨⟨?_, 0, ?_⟩, hQ s⟩
  · rw [hctx]
    exact .refl _
  · rw [hreader]
    exact .refl _

theorem ofExcept {r : Except Error α} (hr : ∀ e, r = .error e → e.code ≠ .recursionLimit ∧
    (e.code = .diverged → n ≤ 1)) : Quiet n (ofExcept r : ParseM O α) := by
  intro s
  cases r with
  | ok a => exact ⟨.refl s, rfl⟩
  | error e => exact ⟨.inr ⟨(hr e rfl).1, .refl _, fun h => .inl ((hr e rfl).2 h)⟩, rfl⟩

theorem onReader {x : ReaderM α} (hx : Moves x) : Quiet n (onReader x : ParseM O α) :=
  fun s => .onReader hx s

theorem checkReader {check : Reader → Except Error α} (hcheck : ∀ r e, check r = .error e →
    e.code ≠ .recursionLimit ∧ e.code ≠ .diverged) : Quiet n (checkReader check : ParseM O α) := by
  intro s
  unfold Protocyte.checkReader ContractAt
  dsimp only
  cases h : check s.reader with
  | ok a => exact ⟨.refl s, rfl⟩
  | error e =>
    obtain ⟨hr, hd⟩ := hcheck _ e h
    exact ⟨.of_spent (.refl _) hr hd, rfl⟩

theorem canRead (count : ℕ) :
    Quiet n (Protocyte.checkReader (Reader.canRead count) : ParseM O Unit) := by
  refine checkReader fun r e h => ?_
  rw [Reader.canRead_eq] at h
  split at h
  · cases h
  · cases h
    rcases r.shortage_code count with he | he
    · rw [he]
      decide
    · rw [he]
      decide

theorem onContext {x : EStateM Error Context α} {A : α → Prop} (hx : Allocates x A) :
    Quiet n (onContext x : ParseM O α) := by
  intro s
  have hs := hx s.ctx
  unfold Protocyte.onContext ContractAt
  dsimp only
  cases h : x s.ctx with
  | ok a ctx => exact ⟨⟨(hs.ok h).1.ran, 0, .refl _⟩, rfl⟩
  | error e ctx =>
    obtain ⟨hspent, hd, hr⟩ := hs.error h
    exact ⟨.of_spent hspent hr hd, rfl⟩

theorem onBound {x : BoundM O α} (hx : ∀ b, Exits (x b)
      (fun a b' => b.ctx.Spent b'.ctx ∧ Q b.obj a b'.obj)
      (fun e b' => b.ctx.Spent b'.ctx ∧ e.code ≠ .recursionLimit ∧ e.code ≠ .diverged ∧
        E b.obj b'.obj)) : Contract n E Q (onBound x) := by
  intro s
  refine Exits.intro ?_ ?_
  · intro a t h
    obtain ⟨b, hb, rfl⟩ := onBound_eq_ok.mp h
    obtain ⟨hspent, hQ⟩ := (hx s.toBound).ok hb
    exact ⟨⟨hspent.ran, 0, .refl _⟩, hQ⟩
  · intro e t h
    obtain ⟨b, hb, rfl⟩ := onBound_eq_error.mp h
    obtain ⟨hspent, hr, hd, hE⟩ := (hx s.toBound).error hb
    exact ⟨.of_spent hspent hr hd, hE⟩

theorem withField (fieldNumber : ℕ) (hx : Contract n E Q x) :
    Contract n E Q (withField fieldNumber x) := by
  intro s
  unfold Protocyte.withField ContractAt
  dsimp only
  cases h : x s with
  | ok a t => exact (hx s).ok h
  | error e t =>
    obtain ⟨he, hE⟩ := (hx s).error h
    exact ⟨he.congr_code rfl, hE⟩

theorem located (hx : Contract n E Q x) : Contract n E Q (located x) := by
  intro s
  unfold Protocyte.located ContractAt
  dsimp only
  cases h : x s with
  | ok a t => exact (hx s).ok h
  | error e t =>
    obtain ⟨he, hE⟩ := (hx s).error h
    exact ⟨he.congr_code rfl, hE⟩

/-- A parse of a part. -/
theorem zoom (l : Lens O P) {x : ParseM P α} {F : P → P → Prop} {R : P → α → P → Prop}
    (hx : Contract n F R x) (hE : ∀ o p, F (l.get o) p → E o (l.set p o))
    (hQ : ∀ o a p, R (l.get o) a p → Q o a (l.set p o)) : Contract n E Q (zoom l x) := by
  intro s
  have hs := hx { ctx := s.ctx, obj := l.get s.obj, reader := s.reader }
  unfold Protocyte.zoom ContractAt
  dsimp only
  unfold ContractAt at hs
  cases h : x { ctx := s.ctx, obj := l.get s.obj, reader := s.reader } with
  | ok a t =>
    obtain ⟨⟨hctx, hreader⟩, ha⟩ := hs.ok h
    exact ⟨⟨hctx, hreader⟩, hQ _ _ _ ha⟩
  | error e t =>
    obtain ⟨he, ho⟩ := hs.error h
    exact ⟨he, hE _ _ ho⟩

theorem zoom_atomic (l : Lens O P) {x : ParseM P α} (hx : Atomic n x) :
    Atomic n (Protocyte.zoom l x) :=
  zoom l hx (fun _ _ h => l.set_unchanged h) fun _ _ _ _ => trivial

/-- A parse of a temporary, which a failure discards. -/
theorem inTemporary (init : T) {x : ParseM T α} (hx : Runs n x) :
    Quiet n (inTemporary init x : ParseM O (α × T)) := by
  intro s
  have hs := hx { ctx := s.ctx, obj := init, reader := s.reader }
  unfold Protocyte.inTemporary ContractAt
  dsimp only
  unfold ContractAt at hs
  cases h : x { ctx := s.ctx, obj := init, reader := s.reader } with
  | ok a t =>
    obtain ⟨⟨hctx, hreader⟩, -⟩ := hs.ok h
    exact ⟨⟨hctx, hreader⟩, rfl⟩
  | error e t => exact ⟨(hs.error h).1, rfl⟩

/-- A parse through a wrapper, whose moves are moves of the reader it wraps. -/
theorem through {wrap : Reader → Reader}
    (hwrap : ∀ r r' k, (wrap r).Moved r' k → ∃ j, r.Moved r'.wrapped j) (hx : Contract n E Q x) :
    Contract n E Q (through wrap x) := by
  intro s
  have hs := hx { s with reader := wrap s.reader }
  unfold Protocyte.through ContractAt
  dsimp only
  unfold ContractAt at hs
  cases h : x { s with reader := wrap s.reader } with
  | ok a t =>
    obtain ⟨⟨hctx, k, hreader⟩, ha⟩ := hs.ok h
    exact ⟨⟨hctx, hwrap _ _ _ hreader⟩, ha⟩
  | error e t =>
    obtain ⟨he, ho⟩ := hs.error h
    exact ⟨he, ho⟩

theorem through_limited (size : ℕ) (hx : Contract n E Q x) :
    Contract n E Q (Protocyte.through (Reader.limited · size) x) :=
  through (fun _ _ k h => ⟨k, h.wrapped_limited⟩) hx

theorem through_ref (hx : Contract n E Q x) : Contract n E Q (Protocyte.through Reader.ref x) :=
  through (fun _ _ k h => ⟨k, h.wrapped_ref⟩) hx

theorem through_staged (reader : SliceReader) (hx : Contract n E Q x) :
    Contract n E Q (Protocyte.through (Reader.staged reader ·) x) :=
  through (fun _ _ _ h => ⟨0, h.wrapped_staged⟩) hx

/-- A step into a level: a success has taken one, and changed nothing else but the reader. -/
def Opens (n : ℕ) (x : ParseM O α) : Prop := ∀ s, Exits (x s)
  (fun _ t => ∃ u, Advanced s u ∧ u.obj = s.obj ∧
    u.ctx.recursionDepth < u.ctx.limits.maxRecursionDepth ∧ t = { u with ctx := u.ctx.descended })
  (fun e t => s.ctx.Failed (s.ctx.Shallow n) e t.ctx ∧ t.obj = s.obj)

end Contract

namespace Contract.Opens

variable {n : ℕ} {E : O → O → Prop} {Q : O → β → O → Prop} {x : ParseM O α}

theorem push (fieldNumber : ℕ) : Opens n (pushRecursion fieldNumber : ParseM O Unit) := by
  intro s
  unfold pushRecursion
  by_cases hd : s.ctx.recursionDepth ≥ s.ctx.limits.maxRecursionDepth
  · rw [if_pos hd]
    exact ⟨.inl ⟨rfl, Context.exceeded_refused hd⟩, rfl⟩
  · rw [if_neg hd]
    exact ⟨s, .refl s, rfl, Nat.lt_of_not_le hd, rfl⟩

theorem withField (fieldNumber : ℕ) (hx : Opens n x) :
    Opens n (Protocyte.withField fieldNumber x) := by
  intro s
  unfold Protocyte.withField
  cases h : x s with
  | ok a t => exact (hx s).ok h
  | error e t =>
    obtain ⟨he, ho⟩ := (hx s).error h
    exact ⟨he.congr_code rfl, ho⟩

theorem ite {c : Prop} [Decidable c] {y : ParseM O α} (hx : Opens n x) (hy : Opens n y) :
    Opens n (if c then x else y) := by
  split
  · exact hx
  · exact hy

theorem failField {code : ErrorCode} (fieldNumber : ℕ) (hr : code ≠ .recursionLimit)
    (hd : code ≠ .diverged) : Opens n (Protocyte.failField code fieldNumber : ParseM O α) :=
  fun _ => ⟨.of_spent (.refl _) hr hd, rfl⟩

theorem map (hx : Opens n x) (f : α → β) : Opens n (do return f (← x)) := by
  intro s
  refine Exits.bind (hx s) ?_
  exact fun a t h => h

theorem after {y : ParseM O β} {f : β → ParseM O α} (hy : Quiet n y) (hf : ∀ a, Opens n (f a)) :
    Opens n (y >>= f) := by
  intro s
  refine Exits.bind (Exits.mono (hy s) (fun _ _ h => h) fun _ _ h => h) ?_
  intro a t ⟨ht, hto⟩
  refine (hf a t).mono ?_ ?_
  · intro b v ⟨u, hu, ho, hd, hv⟩
    exact ⟨u, ht.trans hu, ho.trans hto, hd, hv⟩
  · intro e u ⟨hu, ho⟩
    exact ⟨.of_ran ht.ctx (hu.mono (ht.ctx.balanced.shallow_iff n).mp), ho.trans hto⟩

/-- A message or an entry one level down. -/
theorem releasing {f : α → ParseM O β} (hx : Opens (n + 1) x) (hE : ∀ o, E o o)
    (hf : ∀ a, Contract n E Q (f a)) :
    Contract (n + 1) E Q (do let a ← x; releasing (f a)) := by
  intro s
  refine Exits.bind ((hx s).mono (fun _ _ h => h) ?_) ?_
  · intro e t ⟨ht, ho⟩
    rw [ho]
    exact ⟨ht, hE _⟩
  intro a t ⟨u, hu, ho, hlt, ht⟩
  have hs := hf a t
  unfold ContractAt at hs
  subst ht
  unfold Protocyte.releasing
  cases h : f a { u with ctx := u.ctx.descended } with
  | ok b v =>
    obtain ⟨⟨hctx, hreader⟩, hb⟩ := hs.ok h
    rw [← ho]
    exact ⟨hu.trans ⟨hctx.pop hlt, hreader⟩, hb⟩
  | error e v =>
    obtain ⟨he, hv⟩ := hs.error h
    rw [← ho]
    refine ⟨.of_ran hu.ctx ((he.pop hlt).mono fun hd => ?_), hv⟩
    exact (hu.ctx.balanced.shallow_iff _).mp (hd.of_descended hlt)

end Contract.Opens

end Protocyte
