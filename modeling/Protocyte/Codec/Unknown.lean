import Protocyte.Codec.Contract

/-! How unknown fields are skipped and stored: both exits. A level is given back on every path out
of a group, and a storage only changes when all of a field could be stored. -/
namespace Protocyte
open Foundation.Computation Foundation.Wire

variable {O α β : Type}

/-- An operation of an object: it only allocates, and does not fail for nesting. -/
def Edits (E : O → O → Prop) (Q : O → α → O → Prop) (x : BoundM O α) : Prop := ∀ s, Exits (x s)
  (fun a s' => s.ctx.Spent s'.ctx ∧ Q s.obj a s'.obj)
  (fun e s' => s.ctx.Spent s'.ctx ∧ e.code ≠ .recursionLimit ∧ e.code ≠ .diverged ∧ E s.obj s'.obj)

/-- The code of a failure for want of memory or room. -/
theorem limit_codes {c : ErrorCode} (h : c ∈ [ErrorCode.noMemory, .sizeLimit, .countLimit,
    .integerOverflow]) : c ≠ .recursionLimit ∧ c ≠ .diverged := by
  simp only [List.mem_cons, List.not_mem_nil, or_false] at h
  rcases h with h | h | h | h
  all_goals
    rw [h]
    decide

theorem Vec.Refused.codes {maxSize n : ℕ} {s : Bound (Vec maxSize α)} {e : Error}
    (h : Refused s n e) : e.code ≠ .recursionLimit ∧ e.code ≠ .diverged := by
  rcases h with ⟨h, -⟩ | ⟨h, -⟩ | ⟨h, -⟩
  all_goals
    rw [h]
    decide

/-- The storage has the same bytes; its capacity may differ. -/
def SameItems (v v' : ByteVec) : Prop := v'.items = v.items

/-- The object may be left in any state. -/
abbrev EditsFreely (x : BoundM O α) : Prop := Edits Anything (fun o _ o' => Anything o o') x

namespace Edits

variable {E E' : O → O → Prop} {Q Q' : O → α → O → Prop} {x : BoundM O α}

theorem contract (n : ℕ) (hx : Edits E Q x) : Contract n E Q (onBound x) := .onBound hx

end Edits

namespace EditsFreely

theorem bind {x : BoundM O α} {f : α → BoundM O β} (hx : EditsFreely x)
    (hf : ∀ a, EditsFreely (f a)) : EditsFreely (x >>= f) := by
  intro s
  refine Exits.bind ((hx s).mono (fun _ _ h => h.1) fun _ _ h => h) ?_
  intro a t ht
  refine (hf a t).mono ?_ ?_
  · exact fun _ _ h => ⟨ht.trans h.1, h.2⟩
  · exact fun _ _ h => ⟨ht.trans h.1, h.2⟩

/-- An object that is built next to the one it replaces in the end. -/
theorem staged (init : O) {x : BoundM O α} (hx : EditsFreely x) :
    Edits Unchanged (fun o _ o' => Anything o o') (do
      let (_, output) ← onTemporary init x
      moveAssign output) := by
  intro s
  refine Exits.bind ((onTemporary_exits (hx { ctx := s.ctx, obj := init })).mono
    (fun _ _ h => h) ?_) ?_
  · intro e s' ⟨⟨t, hs, hr, hd, _⟩, ho⟩
    exact ⟨hs, hr, hd, ho⟩
  · intro ⟨a, output⟩ s' ⟨⟨hs, _⟩, _⟩
    exact ⟨hs, trivial⟩

theorem of_writes {x : BoundM ByteVec Unit} {bs : List UInt8} (hx : Writes x bs) :
    EditsFreely x := by
  intro s
  refine (hx s).mono ?_ ?_
  · exact fun _ _ h => ⟨h.2.1.ctx, trivial⟩
  · intro e s' h
    obtain ⟨hr, hd⟩ := limit_codes h.2.2.2
    exact ⟨h.2.1.ctx, hr, hd, trivial⟩

theorem writeVarint (value : ℕ) : EditsFreely (writeVarint value : BoundM ByteVec Unit) := by
  intro s
  refine (writeVarint_follows value s).mono ?_ ?_
  · intro _ s' h
    have hkeeps : UnknownFieldWriter.Keeps s s' := h
    exact ⟨hkeeps.ctx, trivial⟩
  · intro e s' h
    have hkeeps : UnknownFieldWriter.Keeps s s' := h.1
    obtain ⟨hr, hd⟩ := limit_codes h.2
    exact ⟨hkeeps.ctx, hr, hd, trivial⟩

/-- A tag of any number is a varint. -/
theorem writeTag (fieldNumber : ℕ) (wireType : WireType) :
    EditsFreely (writeTag fieldNumber wireType : BoundM ByteVec Unit) := by
  intro s
  have hs := writeVarint (Tag.raw ⟨fieldNumber, wireType⟩) s
  refine Exits.intro ?_ ?_
  · exact fun _ _ h => hs.ok (withField_eq_ok.mp h)
  · intro e s' h
    obtain ⟨e', he, rfl⟩ := withField_eq_error.mp h
    obtain ⟨hspent, hr, hd, -⟩ := hs.error he
    exact ⟨hspent, hr, hd, trivial⟩

theorem write (bs : List UInt8) : EditsFreely (Writer.write bs : BoundM ByteVec Unit) :=
  of_writes (.bytes bs)

theorem writeFixed (width value : ℕ) :
    EditsFreely (writeFixed width value : BoundM ByteVec Unit) :=
  of_writes (writes_fixed width value)

theorem reserve (n : ℕ) : EditsFreely (Vec.reserve n : BoundM ByteVec Unit) := by
  intro s
  refine (Vec.reserve_exits n s).mono ?_ ?_
  · exact fun _ _ h => ⟨h.1, trivial⟩
  · intro e s' ⟨hs, _, he⟩
    rcases he with ⟨he, -⟩ | ⟨he, -⟩
    all_goals
      rw [he]
      exact ⟨hs, nofun, nofun, trivial⟩

theorem appendTrivialRange {values : List UInt8} (hv : values.length ≤ usizeMax) :
    EditsFreely (Vec.appendTrivialRange values : BoundM ByteVec Unit) := by
  intro s
  refine (Vec.appendTrivialRange_exits hv (Nat.le_refl _) s).mono ?_ ?_
  · exact fun _ _ h => ⟨h.1, trivial⟩
  · intro e s' ⟨hs, _, he⟩
    exact ⟨hs, he.codes.1, he.codes.2, trivial⟩

theorem resizeForOverwrite (fill : UInt8) (n : ℕ) :
    EditsFreely (Vec.resizeForOverwrite fill n : BoundM ByteVec Unit) := by
  intro s
  refine (Vec.resizeForOverwrite_exits fill n s).mono ?_ ?_
  · exact fun _ _ h => ⟨h.1, trivial⟩
  · intro e s' ⟨hs, _, he⟩
    exact ⟨hs, he.codes.1, he.codes.2, trivial⟩

end EditsFreely

namespace MutableUnknownFieldSet

/-- A failure cuts the storage back. -/
theorem appendField_edits {f : ℕ} {w : WireType} {emit : BoundM ByteVec Unit} {bs : List UInt8}
    (hemit : Writes emit bs) :
    Edits SameItems (fun o _ o' => Anything o o') (appendField f w emit) := by
  intro s
  unfold appendField
  by_cases hv : validFieldNumber f = true
  · obtain ⟨-, hmax⟩ := (validFieldNumber_iff f).mp hv
    simp only [hv, Bool.not_true, Bool.false_eq_true, if_false]
    have hx := (writes_tag (σ := Bound ByteVec) w hmax).bind hemit
    cases ho : (do writeTag f w; emit : BoundM ByteVec Unit) s with
    | ok u s' => exact ⟨((hx s).ok ho).2.1.ctx, trivial⟩
    | error e s' =>
      obtain ⟨⟨cs, hi⟩, hk, -, he⟩ := (hx s).error ho
      have hi' : s'.obj.items = s.obj.items ++ cs := hi
      have hle : s.obj.size ≤ s'.obj.size := by
        rw [Vec.size, Vec.size, hi', List.length_append]
        exact Nat.le_add_right _ _
      have hback := Vec.resizeForOverwrite_shrink (0 : UInt8) (s := s') hle
      obtain ⟨hr, hd⟩ := limit_codes he
      simp only [hback]
      refine ⟨hk.ctx, hr, hd, ?_⟩
      simp [SameItems, hi', Vec.size]
  · simp only [hv, Bool.not_false, if_true]
    exact ⟨.refl _, nofun, nofun, rfl⟩

theorem addVarint_edits (f : ℕ) (value : UInt64) :
    Edits SameItems (fun o _ o' => Anything o o') (addVarint f value) :=
  appendField_edits (writes_varint value.toNat_lt)

/-- A failure discards the copy. -/
theorem appendFieldTransactional_edits {f : ℕ} {w : WireType} {emit : BoundM ByteVec Unit}
    (hemit : EditsFreely emit) :
    Edits SameItems (fun o _ o' => Anything o o') (appendFieldTransactional f w emit) := by
  intro s
  unfold appendFieldTransactional
  by_cases hv : validFieldNumber f = true
  swap
  · simp only [hv, Bool.not_false, if_true]
    exact ⟨.refl _, nofun, nofun, rfl⟩
  simp only [hv, Bool.not_true, Bool.false_eq_true, if_false]
  split
  · exact ⟨.refl _, nofun, nofun, rfl⟩
  have hstaged := EditsFreely.staged Vec.empty ((EditsFreely.reserve s.obj.size).bind
    fun _ => (EditsFreely.appendTrivialRange s.obj.size_le).bind fun _ =>
      (EditsFreely.writeTag f w).bind fun _ => hemit) s
  split
  · next h => exact hstaged.ok h
  · next h =>
    obtain ⟨hs, hr, hd, ho⟩ := hstaged.error h
    exact ⟨hs, hr, hd, congrArg Vec.items ho⟩

theorem addLengthDelimited_edits (f : ℕ) (value : ByteSpan) :
    Edits SameItems (fun o _ o' => Anything o o') (addLengthDelimited f value) := by
  intro s
  exact appendFieldTransactional_edits
    ((EditsFreely.writeVarint _).bind fun _ => .write _) s

end MutableUnknownFieldSet

theorem checkedAdd_codes {m n : ℕ} {e : Error} (h : checkedAdd m n = .error e) :
    e.code ≠ .recursionLimit ∧ e.code ≠ .diverged := by
  unfold checkedAdd at h
  dsimp only at h
  split at h
  · cases h
    exact ⟨nofun, nofun⟩
  · cases h

theorem mergedStorage_allocates (current addition : Bytes) :
    Allocates (mergedStorage current addition) fun _ => True := by
  intro ctx
  have hp : Exits (prepareUnknownFieldMerge current.val addition.val { ctx, obj := Vec.empty })
      (fun _ s => ctx.Spent s.ctx)
      (fun e s => ctx.Spent s.ctx ∧ e.code ≠ .diverged ∧ e.code ≠ .recursionLimit) := by
    unfold prepareUnknownFieldMerge
    cases htotal : checkedAdd current.val.length addition.val.length with
    | error e =>
      obtain ⟨hr, hd⟩ := checkedAdd_codes htotal
      exact ⟨.refl _, hd, hr⟩
    | ok total =>
      dsimp only
      split
      · exact ⟨.refl _, nofun, nofun⟩
      have hstaged := EditsFreely.staged Vec.empty ((EditsFreely.reserve total).bind
        fun _ => (EditsFreely.appendTrivialRange current.2).bind fun _ =>
          EditsFreely.appendTrivialRange addition.2) { ctx, obj := Vec.empty }
      exact hstaged.mono (fun _ _ h => h.1) fun _ _ h => ⟨h.1, h.2.2.1, h.2.1⟩
  unfold mergedStorage
  cases h : prepareUnknownFieldMerge current.val addition.val { ctx, obj := Vec.empty } with
  | ok u s => exact ⟨hp.ok h, trivial⟩
  | error e s => exact hp.error h

instance : IsPreorder O Unchanged where
  refl _ := rfl
  trans _ _ _ h h' := Eq.trans h' h

instance : IsPreorder O Anything where
  refl _ := trivial
  trans _ _ _ _ _ := trivial

/-- Both exits of a parse that never gives up. -/
abbrev RunsAt (E : O → O → Prop) (x : ParseM O α) (s : Parse O) : Prop :=
  ContractAt False E (fun o _ o' => E o o') x s

namespace RunsAt

variable {E : O → O → Prop} [IsPreorder O E] {x : ParseM O α} {s : Parse O}

theorem bind {f : α → ParseM O β} (hx : RunsAt E x s)
    (hf : ∀ a t, Advanced s t → RunsAt E (f a) t) : RunsAt E (x >>= f) s := by
  refine ContractAt.bind hx ?_
  intro a t ht ho
  refine Exits.mono (hf a t ht) ?_ ?_
  · exact fun _ _ h => ⟨h.1, IsTrans.trans _ _ _ ho h.2⟩
  · exact fun _ _ h => ⟨h.1, IsTrans.trans _ _ _ ho h.2⟩

omit [IsPreorder O E] in
theorem withField (f : ℕ) (hx : RunsAt E x s) : RunsAt E (withField f x) s := by
  unfold RunsAt ContractAt at hx ⊢
  unfold Protocyte.withField
  cases h : x s with
  | ok a t => exact hx.ok h
  | error e t =>
    obtain ⟨he, ho⟩ := hx.error h
    exact ⟨he.congr_code rfl, ho⟩

theorem failing {e : Error} (hr : e.code ≠ .recursionLimit) (hd : e.code ≠ .diverged)
    (hx : x s = .error e s) : RunsAt E x s := by
  unfold RunsAt ContractAt
  rw [hx]
  exact ⟨.of_spent (.refl _) hr hd, refl_of E s.obj⟩

theorem onReader {x : ReaderM α} (hx : Forward x) : RunsAt E (onReader x) s := by
  refine (ContractAt.onReader hx.moves s).mono id ?_ ?_
  · intro o o' h
    rw [h]
    exact refl_of E o
  · intro o _ o' h
    rw [h]
    exact refl_of E o

end RunsAt

/-- A tag takes bytes. -/
theorem readTag_exits (s : Parse O) : Exits (onReader readTag s)
    (fun tag t => Advanced s t ∧ t.obj = s.obj ∧ tag.fieldNumber ≤ maxNumber ∧
      t.reader.rest.length < s.reader.rest.length)
    (fun e t => s.ctx.Failed False e t.ctx ∧ t.obj = s.obj) := by
  refine Exits.intro ?_ ?_
  · intro tag t h
    obtain ⟨r, hr, rfl⟩ := onReader_eq_ok.mp h
    obtain ⟨bs, xs, hbs, hkey, rfl⟩ := readTag_eq_ok.mp hr
    have hlength := congrArg List.length hbs
    rw [List.length_append] at hlength
    have hpos := hkey.length_pos
    refine ⟨⟨.refl _, bs.length, .advance (by omega)⟩, rfl, hkey.2.2.1, ?_⟩
    rw [Reader.rest_advance, List.length_drop]
    omega
  · intro e t h
    obtain ⟨r, hr, rfl⟩ := onReader_eq_error.mp h
    obtain ⟨hlimit, hdiverged⟩ := (Forward.readTag.moves s.reader).error hr
    exact ⟨.of_spent (.refl _) hlimit hdiverged, rfl⟩

section
variable {E : O → O → Prop} [IsPreorder O E] {s t : Parse O}

/-- Inside the level opened at `s`: a failure gives the level back. -/
private def Unwound (E : O → O → Prop) (s : Parse O) (x : ParseM O α) (t : Parse O)
    (Q : α → Parse O → Prop) : Prop :=
  Exits (x t) Q (fun e u => s.ctx.Failed False e u.ctx ∧ E t.obj u.obj)

omit [IsPreorder O E] in
private theorem unwound_of_pops {x y : ParseM O α} {g : Error → Error} {Q : α → Parse O → Prop}
    (hy : y t = match x t with
      | .ok a u => .ok a u
      | .error e u => .error (g e) { u with ctx := u.ctx.popRecursion })
    (hg : ∀ e, (g e).code = e.code)
    (hx : Exits (x t) Q (fun e u => t.ctx.Failed False e u.ctx ∧ E t.obj u.obj))
    (hd : s.ctx.recursionDepth < s.ctx.limits.maxRecursionDepth)
    (ht : s.ctx.descended.Ran t.ctx) : Unwound E s y t Q := by
  unfold Unwound
  rw [hy]
  cases h : x t with
  | ok a u => exact hx.ok h
  | error e u =>
    obtain ⟨he, ho⟩ := hx.error h
    exact ⟨((he.congr_code (hg e)).of_ran ht).pop hd, ho⟩

omit [IsPreorder O E] in
private theorem unwound_unwinding {x : ParseM O α} {Q : α → Parse O → Prop} (f : ℕ)
    (hx : Exits (x t) Q (fun e u => t.ctx.Failed False e u.ctx ∧ E t.obj u.obj))
    (hd : s.ctx.recursionDepth < s.ctx.limits.maxRecursionDepth)
    (ht : s.ctx.descended.Ran t.ctx) : Unwound E s (unwinding f x) t Q :=
  unwound_of_pops (g := (·.withField f)) rfl (fun _ => rfl) hx hd ht

omit [IsPreorder O E] in
private theorem unwound_popOnError {x : ParseM O α} {Q : α → Parse O → Prop}
    (hx : Exits (x t) Q (fun e u => t.ctx.Failed False e u.ctx ∧ E t.obj u.obj))
    (hd : s.ctx.recursionDepth < s.ctx.limits.maxRecursionDepth)
    (ht : s.ctx.descended.Ran t.ctx) : Unwound E s (popOnError x) t Q :=
  unwound_of_pops (g := id) rfl (fun _ => rfl) hx hd ht

private theorem tag_exits (t : Parse O) : Exits (onReader readTag t)
    (fun _ u => Advanced t u ∧ E t.obj u.obj ∧ u.reader.rest.length < t.reader.rest.length)
    (fun e u => t.ctx.Failed False e u.ctx ∧ E t.obj u.obj) := by
  refine (readTag_exits t).mono ?_ ?_
  · intro _ u ⟨hu, ho, _, hlt⟩
    rw [ho]
    exact ⟨hu, refl_of E _, hlt⟩
  · intro e u ⟨hu, ho⟩
    rw [ho]
    exact ⟨hu, refl_of E _⟩

/-- The loop over the fields of a group, which leaves the level opened at `s`. -/
private def Leaves (E : O → O → Prop) (n : ℕ) (s : Parse O) (loop : ParseM O Unit) : Prop :=
  ∀ t, s.ctx.descended.Ran t.ctx → t.reader.rest.length < n → Unwound E s loop t fun _ u =>
    s.ctx.Ran u.ctx ∧ E t.obj u.obj ∧ ∃ k, t.reader.Moved u.reader k

/-- One iteration: the end tag leaves the level, any other field is taken inside. -/
private theorem leaves_succ {n : ℕ} {tagged : ParseM O Tag} {close member : Tag → ParseM O Unit}
    {loop : ParseM O Unit} (hd : s.ctx.recursionDepth < s.ctx.limits.maxRecursionDepth)
    (htagged : ∀ t, s.ctx.descended.Ran t.ctx → Unwound E s tagged t fun _ u =>
      Advanced t u ∧ E t.obj u.obj ∧ u.reader.rest.length < t.reader.rest.length)
    (hclose : ∀ tag u, RunsAt E (close tag) u)
    (hmember : ∀ tag u, s.ctx.descended.Ran u.ctx → u.reader.rest.length < n →
      Unwound E s (member tag) u fun _ v => Advanced u v ∧ E u.obj v.obj)
    (hloop : Leaves E n s loop) : Leaves E (n + 1) s (do
      let tag ← tagged
      if tag.wireType = .egroup then
        popRecursion
        close tag
      else
        member tag
        loop) := by
  intro t ht hn
  refine Exits.bind (htagged t ht) ?_
  intro tag u ⟨hu, htu, hlt⟩
  have hctx := ht.trans hu.ctx
  obtain ⟨j, hj⟩ := hu.reader
  refine Exits.ite (fun _ => ?_) fun _ => ?_
  · rw [bind_of_ok (popRecursion_apply u)]
    refine Exits.mono (hclose tag { u with ctx := u.ctx.popRecursion }) ?_ ?_
    · intro _ v ⟨⟨hv, k, hk⟩, ho⟩
      exact ⟨(hctx.pop hd).trans hv, IsTrans.trans _ _ _ htu ho, j + k, hj.trans hk⟩
    · exact fun _ _ h => ⟨.of_ran (hctx.pop hd) h.1, IsTrans.trans _ _ _ htu h.2⟩
  · have hlt' : u.reader.rest.length < n := by omega
    refine Exits.bind ((hmember tag u hctx hlt').mono (fun _ _ h => h) ?_) ?_
    · exact fun _ _ h => ⟨h.1, IsTrans.trans _ _ _ htu h.2⟩
    intro _ v ⟨hv, huv⟩
    obtain ⟨k, hk⟩ := hv.reader
    have htv := IsTrans.trans _ _ _ htu huv
    refine (hloop v (hctx.trans hv.ctx) (Nat.lt_of_le_of_lt hv.rest_le hlt')).mono ?_ ?_
    · intro _ w ⟨hw, ho, l, hl⟩
      exact ⟨hw, IsTrans.trans _ _ _ htv ho, j + k + l, (hj.trans hk).trans hl⟩
    · exact fun _ _ h => ⟨h.1, IsTrans.trans _ _ _ htv h.2⟩

/-- A group, when the loop over its fields leaves it. -/
private theorem runsAt_of_leaves {n f : ℕ} {push loop : ParseM O Unit}
    (hpush : push s = pushRecursion f s ∨ push s = withField f (pushRecursion f) s)
    (hs : s.reader.rest.length < n)
    (hloop : s.ctx.recursionDepth < s.ctx.limits.maxRecursionDepth → Leaves E n s loop) :
    RunsAt E (do push; loop) s := by
  unfold RunsAt ContractAt
  rw [bind_apply]
  by_cases hd : s.ctx.recursionDepth ≥ s.ctx.limits.maxRecursionDepth
  · have hrefused : ∃ e, push s = .error e { s with ctx := s.ctx.refused } ∧
        e.code = .recursionLimit := by
      rcases hpush with h | h
      · rw [h, pushRecursion, if_pos hd]
        exact ⟨_, rfl, rfl⟩
      · rw [h, withField, pushRecursion, if_pos hd]
        exact ⟨_, rfl, rfl⟩
    obtain ⟨e, h, he⟩ := hrefused
    rw [h]
    exact ⟨.inl ⟨he, Context.exceeded_refused hd⟩, refl_of E s.obj⟩
  · have hlt := Nat.lt_of_not_le hd
    have hgranted : push s = .ok () s.descended := by
      rcases hpush with h | h
      · rw [h, pushRecursion, if_neg hd]
        rfl
      · rw [h, withField, pushRecursion, if_neg hd]
        rfl
    rw [hgranted]
    refine (hloop hlt s.descended (.refl _) hs).mono ?_ fun _ _ h => h
    exact fun _ _ h => ⟨⟨h.1, h.2.2⟩, h.2.1⟩

end

private theorem skipFieldWith_runs {g : ℕ → ParseM O Unit} {s : Parse O} (w : WireType) (f : ℕ)
    (hg : RunsAt Unchanged (g f) s) : RunsAt Unchanged (skipFieldWith g w f) s := by
  cases w with
  | varint => exact .withField f (.onReader (Forward.readVarint.bind fun _ => .pure ()))
  | i64 => exact .withField f (.onReader (.skip 8))
  | len =>
    exact .withField f (.onReader (Forward.readLengthDelimitedSize.bind fun n => .skip n))
  | sgroup => exact .withField f hg
  | i32 => exact .withField f (.onReader (.skip 4))
  | egroup | reserved6 | reserved7 =>
    exact .failing (e := ⟨.invalidWireType, s.reader.position, f⟩) nofun nofun rfl

private theorem skipGroupLoop_leaves (n f : ℕ) (s : Parse O)
    (hd : s.ctx.recursionDepth < s.ctx.limits.maxRecursionDepth) :
    Leaves Unchanged n s (skipGroupLoop n f) := by
  induction n generalizing f s with
  | zero => exact fun t _ hn => absurd hn (Nat.not_lt_zero _)
  | succ n ih =>
    rw [skipGroupLoop_succ]
    refine leaves_succ hd ?_ ?_ ?_ (ih f s hd)
    · exact fun t ht => unwound_unwinding f (tag_exits t) hd ht
    · intro tag u
      refine Exits.ite (fun _ => ?_) fun _ => ?_
      · exact ⟨.of_spent (.refl _) nofun nofun, rfl⟩
      · exact ⟨.refl u, rfl⟩
    · intro tag u hu hn
      refine unwound_unwinding f ?_ hd hu
      exact skipFieldWith_runs _ _
        (runsAt_of_leaves (.inr rfl) hn fun hlt => ih tag.fieldNumber u hlt)

theorem skipField_quiet (n : ℕ) (w : WireType) (f : ℕ) :
    Quiet n (skipField w f : ParseM O Unit) := by
  intro s
  have hruns : RunsAt Unchanged (skipField w f) s := skipFieldWith_runs w f
    (runsAt_of_leaves (.inr rfl) (Nat.lt_succ_self _) fun hlt => skipGroupLoop_leaves _ f s hlt)
  exact hruns.mono False.elim (fun _ _ h => h) fun _ _ _ h => h

section
variable {s : Parse ByteVec}

private theorem onBound_exits {x : BoundM ByteVec Unit} (hx : EditsFreely x) (s : Parse ByteVec) :
    Exits (onBound x s) (fun _ t => s.ctx.Spent t.ctx ∧ t.reader = s.reader)
      (fun e t => s.ctx.Spent t.ctx ∧ e.code ≠ .recursionLimit ∧ e.code ≠ .diverged) := by
  refine Exits.intro ?_ ?_
  · intro a t h
    obtain ⟨b, hb, rfl⟩ := onBound_eq_ok.mp h
    exact ⟨((hx s.toBound).ok hb).1, rfl⟩
  · intro e t h
    obtain ⟨b, hb, rfl⟩ := onBound_eq_error.mp h
    obtain ⟨hspent, hr, hd, -⟩ := (hx s.toBound).error hb
    exact ⟨hspent, hr, hd⟩

private theorem runsAt_onBound {x : BoundM ByteVec Unit} (hx : EditsFreely x) :
    RunsAt Anything (onBound x) s := by
  refine (onBound_exits hx s).mono ?_ ?_
  · intro _ t ⟨hspent, hreader⟩
    refine ⟨⟨hspent.ran, 0, ?_⟩, trivial⟩
    rw [hreader]
    exact .refl _
  · exact fun _ _ h => ⟨.of_spent h.1 h.2.1 h.2.2, trivial⟩

/-- Cutting the storage back keeps a failure what it was. -/
private theorem failed_cut_back {s t : Parse ByteVec} {e : Error} (e' : Error) (n : ℕ)
    (h : s.ctx.Failed False e t.ctx) (he : e'.code = e.code) :
    Exits (match onBound (Vec.resizeForOverwrite 0 n) t with
      | .ok _ u | .error _ u => (.error e' u : EStateM.Result Error (Parse ByteVec) α))
      (fun _ _ => False) (fun e'' u => s.ctx.Failed False e'' u.ctx) := by
  have hback := onBound_exits (.resizeForOverwrite 0 n) t
  cases hb : onBound (Vec.resizeForOverwrite 0 n) t with
  | ok a u => exact (h.congr_code he).spent (hback.ok hb).1
  | error e'' u => exact (h.congr_code he).spent (hback.error hb).1

private theorem runsAt_failing {x : ParseM ByteVec Unit} (f : ℕ) (hx : RunsAt Anything x s) :
    RunsAt Anything (failing f x) s := by
  unfold RunsAt ContractAt at hx ⊢
  unfold failing
  cases h : x s with
  | ok a t => exact hx.ok h
  | error e t =>
    have hcut := failed_cut_back (α := Unit)
      { e with offset := t.reader.position, fieldNumber := f } s.obj.size (hx.error h).1 rfl
    exact hcut.mono (fun _ _ h => h.elim) fun _ _ h => ⟨h, trivial⟩

private theorem readFrom_runs (n : ℕ) : RunsAt Anything (UnknownFieldWriter.readFrom n) s := by
  unfold RunsAt ContractAt UnknownFieldWriter.readFrom
  split
  · exact ⟨.of_spent (.refl _) nofun nofun, trivial⟩
  split
  · exact ⟨.refl s, trivial⟩
  dsimp only
  have hresize := onBound_exits (.resizeForOverwrite 0 (s.obj.size + n)) s
  cases hb : onBound (Vec.resizeForOverwrite 0 (s.obj.size + n)) s with
  | error e t =>
    obtain ⟨hspent, hr, hd⟩ := hresize.error hb
    exact ⟨.of_spent hspent hr hd, trivial⟩
  | ok a t =>
    obtain ⟨hspent, hreader⟩ := hresize.ok hb
    dsimp only
    have hread : RunsAt Anything (onReader (Reader.read n)) t := .onReader (.read n)
    unfold RunsAt ContractAt at hread
    cases h : onReader (Reader.read n) t with
    | ok bytes u =>
      obtain ⟨⟨hctx, hmoved⟩, -⟩ := hread.ok h
      rw [hreader] at hmoved
      exact ⟨⟨hspent.ran.trans hctx, hmoved⟩, trivial⟩
    | error e u =>
      have hfailed : s.ctx.Failed False e u.ctx := .of_ran hspent.ran (hread.error h).1
      have hcut := failed_cut_back (α := Unit) e s.obj.size hfailed rfl
      exact hcut.mono (fun _ _ h => h.elim) fun _ _ h => ⟨h, trivial⟩

private theorem readUnknownValue_runs {g : ℕ → ParseM ByteVec Unit} (w : WireType) (f : ℕ)
    (hg : RunsAt Anything (g f) s) : RunsAt Anything (readUnknownValue g w f) s := by
  cases w with
  | varint => exact (RunsAt.onReader .readVarint).bind fun _ _ _ => runsAt_onBound (.writeVarint _)
  | i64 =>
    exact (RunsAt.onReader (.readFixed 8)).bind fun _ _ _ => runsAt_onBound (.writeFixed 8 _)
  | len =>
    refine (RunsAt.onReader .readLengthDelimitedSize).bind fun _ _ _ => ?_
    exact (runsAt_onBound (.writeVarint _)).bind fun _ _ _ => readFrom_runs _
  | sgroup => exact hg
  | i32 =>
    exact (RunsAt.onReader (.readFixed 4)).bind fun _ _ _ => runsAt_onBound (.writeFixed 4 _)
  | egroup | reserved6 | reserved7 =>
    exact .failing (e := ⟨.invalidWireType, s.reader.position, f⟩) nofun nofun rfl

private theorem readUnknownFieldWith_runs {g : ℕ → ParseM ByteVec Unit} (w : WireType) (f : ℕ)
    (hg : ∀ t, t.reader = s.reader → RunsAt Anything (g f) t) :
    RunsAt Anything (readUnknownFieldWith g w f) s := by
  refine runsAt_failing f
    (Exits.bind ((onBound_exits (.writeTag f w) s).mono (fun _ _ h => h) ?_) ?_)
  · exact fun _ _ h => ⟨.of_spent h.1 h.2.1 h.2.2, trivial⟩
  · intro _ t ⟨hspent, hreader⟩
    refine Exits.mono (readUnknownValue_runs w f (hg t hreader)) ?_ ?_
    · intro _ u ⟨⟨hctx, hmoved⟩, _⟩
      rw [hreader] at hmoved
      exact ⟨⟨hspent.ran.trans hctx, hmoved⟩, trivial⟩
    · exact fun _ _ h => ⟨.of_ran hspent.ran h.1, trivial⟩

private theorem readGroupLoop_leaves (n f : ℕ) (s : Parse ByteVec)
    (hd : s.ctx.recursionDepth < s.ctx.limits.maxRecursionDepth) :
    Leaves Anything n s (readGroupLoop n f) := by
  induction n generalizing f s with
  | zero => exact fun t _ hn => absurd hn (Nat.not_lt_zero _)
  | succ n ih =>
    rw [readGroupLoop_succ]
    refine leaves_succ hd ?_ ?_ ?_ (ih f s hd)
    · exact fun t ht => unwound_popOnError (tag_exits t) hd ht
    · intro tag u
      refine Exits.ite (fun _ => ?_) fun _ => ?_
      · exact ⟨.of_spent (.refl _) nofun nofun, trivial⟩
      · exact runsAt_onBound (.writeTag _ _)
    · intro tag u hu hn
      refine unwound_popOnError ?_ hd hu
      refine readUnknownFieldWith_runs _ _ fun v hv => ?_
      exact runsAt_of_leaves (.inl rfl) (by rw [hv]; exact hn) fun hlt => ih tag.fieldNumber v hlt

/-- A field that is not stored completely is not stored at all. -/
theorem readUnknownField_contract (n : ℕ) (w : WireType) {f : ℕ} (hf : f ≤ maxNumber) :
    Contract n SameItems (fun o _ o' => Anything o o') (readUnknownField w f) := by
  intro s
  have hruns : RunsAt Anything (readUnknownField w f) s :=
    readUnknownFieldWith_runs w f fun t ht => runsAt_of_leaves (.inl rfl)
      (by rw [ht]; exact Nat.lt_succ_self _) fun hlt => readGroupLoop_leaves _ f t hlt
  have hitems := readUnknownField_exits w hf s
  unfold RunsAt ContractAt at hruns
  refine Exits.intro ?_ ?_
  · exact fun _ t h => hruns.ok h
  · intro e t h
    exact ⟨(hruns.error h).1.mono False.elim, (hitems.error h).1⟩

end
end Protocyte
