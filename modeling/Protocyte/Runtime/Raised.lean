import Protocyte.Foundation.Commuting
import Protocyte.Runtime.HashMap
import Protocyte.Runtime.Skip
import Protocyte.Runtime.UnknownFields.Mutable
import Protocyte.Runtime.UnknownFields.Read

/-! What a larger recursion limit changes: nothing but runs that fail at the limit. -/
namespace Protocyte
open Foundation.Computation Foundation.Wire

variable {O T α β σ : Type} {k : ℕ}

/-- `k` more levels. -/
def Context.raised (k : ℕ) (ctx : Context) : Context :=
  { ctx with limits := { ctx.limits with maxRecursionDepth := ctx.limits.maxRecursionDepth + k } }

def Bound.raised (k : ℕ) (s : Bound O) : Bound O := { s with ctx := s.ctx.raised k }

@[simp] theorem Bound.raised_obj (s : Bound O) : (s.raised k).obj = s.obj := rfl

@[simp] theorem Bound.raised_grants (s : Bound O) : (s.raised k).ctx.grants = s.ctx.grants := rfl

def Parse.raised (k : ℕ) (s : Parse O) : Parse O := { s with ctx := s.ctx.raised k }

@[simp] theorem Parse.raised_obj (s : Parse O) : (s.raised k).obj = s.obj := rfl

@[simp] theorem Parse.raised_reader (s : Parse O) : (s.raised k).reader = s.reader := rfl

/-- The outcome is the same after `f`. -/
abbrev Unaffected (f : σ → σ) (x : EStateM Error σ α) : Prop := Commutes f (fun _ => False) x

/-- The outcome is the same with `k` more levels, unless the recursion limit was met. -/
abbrev Persists (k : ℕ) (x : ParseM O α) : Prop :=
  Commutes (Parse.raised k) (fun e => e.code = .recursionLimit) x

theorem Context.popRecursion_raised (ctx : Context) :
    (ctx.raised k).popRecursion = ctx.popRecursion.raised k := by
  unfold popRecursion
  split
  · next h => rw [if_pos (show ctx.recursionDepth ≠ 0 from h)]; rfl
  · next h => rw [if_neg (show ¬ctx.recursionDepth ≠ 0 from h)]

namespace Unaffected

variable {f : σ → σ} {x : EStateM Error σ α}

theorem error {s t : σ} {e : Error} (h : Unaffected f x) (hx : x s = .error e t) :
    x (f s) = .error e (f t) :=
  ((h s).error hx).resolve_left id

/-- Both runs, whichever way they go. -/
theorem runs (h : Unaffected f x) (s : σ) : (∃ a t, x s = .ok a t ∧ x (f s) = .ok a (f t)) ∨
    ∃ e t, x s = .error e t ∧ x (f s) = .error e (f t) := by
  cases hx : x s with
  | ok a t => exact .inl ⟨a, t, rfl, (h s).ok hx⟩
  | error e t => exact .inr ⟨e, t, rfl, h.error hx⟩

theorem withField (n : ℕ) (hx : Unaffected f x) : Unaffected f (withField n x) := by
  intro s
  unfold CommutesAt Protocyte.withField
  obtain ⟨a, t, h, hf⟩ | ⟨e, t, h, hf⟩ := hx.runs s
  · rw [h, hf]
    exact .pure a
  · rw [h, hf]
    exact .throw _

theorem onTemporary (init : T) {x : BoundM T α} (hx : Unaffected (Bound.raised k) x) :
    Unaffected (Bound.raised k) (onTemporary init x : BoundM O (α × T)) := by
  intro s
  unfold CommutesAt Protocyte.onTemporary
  obtain ⟨a, t, h, hf⟩ | ⟨e, t, h, hf⟩ := hx.runs { ctx := s.ctx, obj := init }
  · rw [h, show x { ctx := (s.raised k).ctx, obj := init } = _ from hf]
    exact .pure _
  · rw [h, show x { ctx := (s.raised k).ctx, obj := init } = _ from hf]
    exact .throw e

theorem moveAssign (obj : O) : Unaffected (Bound.raised k) (moveAssign obj) :=
  .modifying fun _ => rfl

end Unaffected

/-- Neither the value nor the failure depends on the context. -/
theorem commutes_ofExcept {f : σ → σ} {L : Error → Prop} (r : Except Error α) :
    Commutes f L (ofExcept r) := by
  cases r with
  | ok a => exact .pure a
  | error e => exact .throw e

/-- A reader does not see the context. -/
theorem commutes_onReader {L : Error → Prop} (x : ReaderM α) :
    Commutes (Parse.raised k) L (onReader x : ParseM O α) := by
  intro s
  unfold CommutesAt onReader
  rw [Parse.raised_reader]
  split
  · exact .pure _
  · exact .throw _

theorem commutes_onBound {L : Error → Prop} {x : BoundM O α} (hx : Unaffected (Bound.raised k) x) :
    Commutes (Parse.raised k) L (onBound x) := by
  intro s
  unfold CommutesAt onBound
  obtain ⟨a, b, h, hf⟩ | ⟨e, b, h, hf⟩ := hx.runs s.toBound
  · rw [h, show x (s.raised k).toBound = _ from hf]
    exact .pure a
  · rw [h, show x (s.raised k).toBound = _ from hf]
    exact .throw e

theorem commutes_failField {L : Error → Prop} (code : ErrorCode) (n : ℕ) :
    Commutes (Parse.raised k) L (failField code n : ParseM O α) := fun _ => .throw _

namespace Persists

theorem withField (n : ℕ) {x : ParseM O α} (hx : Persists k x) : Persists k (withField n x) := by
  intro s
  unfold CommutesAt Protocyte.withField
  cases h : x s with
  | ok a t => rw [(hx s).ok h]; exact .pure a
  | error e t =>
    refine ((hx s).error h).imp_right fun hf => ?_
    rw [hf]

theorem popRecursion : Persists k (popRecursion : ParseM O Unit) :=
  .modifying fun s => by simp only [Parse.raised, Context.popRecursion_raised]

/-- Only here the limit counts. -/
theorem pushRecursion (n : ℕ) : Persists k (pushRecursion n : ParseM O Unit) := by
  intro s
  unfold CommutesAt Protocyte.pushRecursion
  by_cases h : s.ctx.recursionDepth ≥ s.ctx.limits.maxRecursionDepth
  · rw [if_pos h]
    exact .inl rfl
  · have hk : ¬(s.raised k).ctx.recursionDepth ≥ (s.raised k).ctx.limits.maxRecursionDepth :=
      fun hk => h (Nat.le_trans (Nat.le_add_right _ k) hk)
    rw [if_neg h, if_neg hk]
    exact .pure ()

/-- Both runs give the same level back. -/
theorem unwinding (n : ℕ) {x : ParseM O α} (hx : Persists k x) :
    Persists k (unwinding n x) := by
  intro s
  unfold CommutesAt Protocyte.unwinding
  cases h : x s with
  | ok a t => rw [(hx s).ok h]; exact .pure a
  | error e t =>
    refine ((hx s).error h).imp_right fun hf => ?_
    rw [hf]
    simp only [Parse.raised, Context.popRecursion_raised]

theorem popOnError {x : ParseM O α} (hx : Persists k x) :
    Persists k (popOnError x) := by
  intro s
  unfold CommutesAt Protocyte.popOnError
  cases h : x s with
  | ok a t => rw [(hx s).ok h]; exact .pure a
  | error e t =>
    refine ((hx s).error h).imp_right fun hf => ?_
    rw [hf]
    simp only [Parse.raised, Context.popRecursion_raised]

end Persists

namespace Vec

variable {maxSize : ℕ}

/-- The allocator answers both runs alike. -/
theorem reserve_unaffected (n : ℕ) :
    Unaffected (Bound.raised k) (reserve n : BoundM (Vec maxSize α) Unit) := by
  intro s
  unfold CommutesAt reserve
  refine .dite (fun _ => .pure ()) fun hc => .dite (fun _ => .throw _) fun hm => ?_
  cases hg : s.ctx.grants 0 with
  | true =>
    simp only [Context.allocate, Bound.raised_grants, hg, if_true]
    exact .pure ()
  | false =>
    simp only [Context.allocate, Bound.raised_grants, hg, Bool.false_eq_true, if_false]
    exact .throw _

theorem extend_unaffected (values : List α) :
    Unaffected (Bound.raised k) (extend values : BoundM (Vec maxSize α) Unit) := fun _ =>
  .dite (fun _ => .pure ()) fun _ => .throw _

theorem pushBack_unaffected (value : α) :
    Unaffected (Bound.raised k) (pushBack value : BoundM (Vec maxSize α) Unit) := by
  intro s
  refine .ite (fun _ => .ite (fun _ => .throw _) fun _ => ?_) fun _ => extend_unaffected [value] s
  rw [Bound.raised_obj]
  split
  · exact .throw _
  · split
    · exact .throw _
    · exact (reserve_unaffected _).bind (fun _ => extend_unaffected _) s

theorem appendTrivialRange_unaffected (values : List α) :
    Unaffected (Bound.raised k) (appendTrivialRange values : BoundM (Vec maxSize α) Unit) := by
  intro s
  refine .ite (fun _ => .pure ()) fun _ => ?_
  rw [Bound.raised_obj]
  split
  · exact .throw _
  · refine .ite (fun _ => .throw _) fun _ => ?_
    exact (reserve_unaffected _).bind (fun _ => extend_unaffected _) s

theorem resizeForOverwrite_unaffected (fill : α) (n : ℕ) :
    Unaffected (Bound.raised k) (resizeForOverwrite fill n : BoundM (Vec maxSize α) Unit) := by
  refine (reserve_unaffected n).bind fun _ => .get_bind (fun _ => rfl) fun s => ?_
  refine .ite (fun _ => .modifying fun _ => rfl) fun _ => ?_
  exact .get_bind (fun _ => rfl) fun _ => extend_unaffected _

theorem resizeDefault_unaffected (default : α) (n : ℕ) :
    Unaffected (Bound.raised k) (resizeDefault default n : BoundM (Vec maxSize α) Unit) := by
  refine .get_bind (fun _ => rfl) fun s => ?_
  refine .ite (fun _ => .modifying fun _ => rfl) fun _ => ?_
  exact (reserve_unaffected n).bind fun _ => extend_unaffected _

theorem assign_unaffected (values : List α) :
    Unaffected (Bound.raised k) (assign values : BoundM (Vec maxSize α) Unit) := by
  intro s
  refine .ite (fun _ => .throw _) fun _ => ?_
  refine (Unaffected.onTemporary _ ?_).bind (fun _ => Unaffected.moveAssign _) s
  exact (reserve_unaffected _).bind fun _ => extend_unaffected _

end Vec

namespace UnknownFieldWriter

theorem writeByte_unaffected (value : UInt8) :
    Unaffected (Bound.raised k) (writeByte value) := fun s =>
  .ite (fun _ => .throw _) fun _ => Vec.pushBack_unaffected value s

theorem write_unaffected (bytes : List UInt8) :
    Unaffected (Bound.raised k) (write bytes) := fun s =>
  .ite (fun _ => .throw _) fun _ => Vec.appendTrivialRange_unaffected bytes s

/-- A failed read cuts the storage back, in both runs to the same size. -/
theorem commutes_readFrom {L : Error → Prop} (n : ℕ) :
    Commutes (Parse.raised k) L (readFrom n) := by
  intro s
  refine .ite (fun _ => .throw _) fun _ => .ite (fun _ => .pure ()) fun _ => ?_
  have hresize : ∀ m, Unaffected (Parse.raised k)
      (onBound (Vec.resizeForOverwrite 0 m) : ParseM ByteVec Unit) := fun m =>
    commutes_onBound (Vec.resizeForOverwrite_unaffected 0 m)
  dsimp only [Parse.raised_obj]
  obtain ⟨u, t, h, hf⟩ | ⟨e, t, h, hf⟩ := (hresize (s.obj.size + n)).runs s
  · have hread : Unaffected (Parse.raised k) (onReader (Reader.read n) : ParseM ByteVec _) :=
      commutes_onReader _
    rw [h, hf]
    dsimp only
    obtain ⟨bytes, v, h, hf⟩ | ⟨e, v, h, hf⟩ := hread.runs t
    · rw [h, hf]
      exact .pure ()
    · rw [h, hf]
      dsimp only
      obtain ⟨u, w, h, hf⟩ | ⟨e', w, h, hf⟩ := (hresize s.obj.size).runs v
      · rw [h, hf]
        exact .throw e
      · rw [h, hf]
        exact .throw e
  · rw [h, hf]
    exact .throw e

end UnknownFieldWriter

section Storage

theorem writeVarint_unaffected (value : ℕ) :
    Unaffected (Bound.raised k) (writeVarint value : BoundM ByteVec Unit) := by
  unfold writeVarint
  generalize 9 = n
  induction n generalizing value with
  | zero => exact UnknownFieldWriter.writeByte_unaffected _
  | succ n ih =>
    refine .ite (fun _ => ?_) fun _ => UnknownFieldWriter.writeByte_unaffected _
    exact (UnknownFieldWriter.writeByte_unaffected _).bind fun _ => ih _

theorem writeTag_unaffected (n : ℕ) (w : WireType) :
    Unaffected (Bound.raised k) (writeTag n w : BoundM ByteVec Unit) :=
  .withField n (writeVarint_unaffected _)

theorem writeFixed_unaffected (width value : ℕ) :
    Unaffected (Bound.raised k) (writeFixed width value : BoundM ByteVec Unit) :=
  UnknownFieldWriter.write_unaffected _

theorem copyUnknownFields_unaffected (other : List UInt8) (maximum : ℕ) :
    Unaffected (Bound.raised k) (copyUnknownFields other maximum) := fun s =>
  .ite (fun _ => .throw _) fun _ => Vec.assign_unaffected other s

theorem prepareUnknownFieldMerge_unaffected (current addition : List UInt8) :
    Unaffected (Bound.raised k) (prepareUnknownFieldMerge current addition) := by
  intro s
  unfold CommutesAt prepareUnknownFieldMerge
  split
  · exact .throw _
  · refine .ite (fun _ => .throw _) fun _ => ?_
    refine (Unaffected.onTemporary _ ?_).bind (fun _ => Unaffected.moveAssign _) s
    refine (Vec.reserve_unaffected _).bind fun _ => ?_
    exact (Vec.appendTrivialRange_unaffected _).bind fun _ => Vec.appendTrivialRange_unaffected _

namespace MutableUnknownFieldSet

/-- The storage is cut back to the size it had in both runs. -/
theorem appendField_unaffected (n : ℕ) (w : WireType) {emit : BoundM ByteVec Unit}
    (hemit : Unaffected (Bound.raised k) emit) :
    Unaffected (Bound.raised k) (appendField n w emit) := by
  intro s
  refine .ite (fun _ => .throw _) fun _ => ?_
  have hx : Unaffected (Bound.raised k) (do writeTag n w; emit : BoundM ByteVec Unit) :=
    (writeTag_unaffected n w).bind fun _ => hemit
  rw [Bound.raised_obj]
  obtain ⟨u, t, h, hf⟩ | ⟨e, t, h, hf⟩ := hx.runs s
  · rw [h, hf]
    exact .pure ()
  · rw [h, hf]
    have hresize : Unaffected (Bound.raised k)
        (Vec.resizeForOverwrite 0 s.obj.size : BoundM ByteVec Unit) :=
      Vec.resizeForOverwrite_unaffected 0 _
    dsimp only
    obtain ⟨u, v, h, hf⟩ | ⟨e', v, h, hf⟩ := hresize.runs t
    · rw [h, hf]
      exact .throw _
    · rw [h, hf]
      exact .throw _

theorem addVarint_unaffected (n : ℕ) (value : UInt64) :
    Unaffected (Bound.raised k) (addVarint n value) :=
  appendField_unaffected n .varint (writeVarint_unaffected _)

/-- The copy that replaces the storage is built alike. -/
theorem appendFieldTransactional_unaffected (n : ℕ) (w : WireType) {emit : BoundM ByteVec Unit}
    (hemit : Unaffected (Bound.raised k) emit) :
    Unaffected (Bound.raised k) (appendFieldTransactional n w emit) := by
  intro s
  refine .ite (fun _ => .throw _) fun _ => .ite (fun _ => .throw _) fun _ => ?_
  rw [Bound.raised_obj]
  have hbuild : Unaffected (Bound.raised k) (onTemporary (Vec.empty : ByteVec) (do
      Vec.reserve s.obj.size
      Vec.appendTrivialRange s.obj.items
      writeTag n w
      emit) >>= fun p => moveAssign p.2 : BoundM ByteVec Unit) := by
    refine (Unaffected.onTemporary _ ?_).bind fun _ => Unaffected.moveAssign _
    refine (Vec.reserve_unaffected _).bind fun _ => ?_
    refine (Vec.appendTrivialRange_unaffected _).bind fun _ => ?_
    exact (writeTag_unaffected n w).bind fun _ => hemit
  dsimp only
  split
  · next u t h =>
    have hf := (hbuild s).ok h
    split
    · next u' t' h' =>
      obtain ⟨-, rfl⟩ := EStateM.Result.ok.inj (hf.symm.trans h')
      exact .pure ()
    · next e t' h' => cases hf.symm.trans h'
  · next e t h =>
    have hf := hbuild.error h
    split
    · next u t' h' => cases hf.symm.trans h'
    · next e' t' h' =>
      obtain ⟨rfl, rfl⟩ := EStateM.Result.error.inj (hf.symm.trans h')
      exact .throw _

theorem addLengthDelimited_unaffected (n : ℕ) (value : ByteSpan) :
    Unaffected (Bound.raised k) (addLengthDelimited n value) := by
  intro s
  unfold CommutesAt addLengthDelimited
  rw [Bound.raised_obj]
  refine appendFieldTransactional_unaffected n .len ?_ s
  exact (writeVarint_unaffected _).bind fun _ => UnknownFieldWriter.write_unaffected _

end MutableUnknownFieldSet

end Storage

namespace HashMap

variable {K V : Type} {maxBuckets : ℕ} [MapKey K] [CopyValue V]

omit [CopyValue V] in
theorem rehashAndInsert_unaffected (n : ℕ) (key : K) (value : V) : Unaffected (Bound.raised k)
    (rehashAndInsert n key value : BoundM (HashMap maxBuckets K V) Unit) := by
  refine .get_bind (fun _ => rfl) fun s => ?_
  refine (Unaffected.onTemporary _ (Vec.resizeDefault_unaffected _ _)).bind fun p => ?_
  refine (commutes_ofExcept _).bind fun _ => (commutes_ofExcept _).bind fun _ => ?_
  exact Unaffected.moveAssign _

omit [CopyValue V] in
theorem insertNew_unaffected (key : K) (value : V) : Unaffected (Bound.raised k)
    (insertNew key value : BoundM (HashMap maxBuckets K V) Unit) := by
  refine .get_bind (fun _ => rfl) fun s => (commutes_ofExcept _).bind fun n => ?_
  refine .ite (fun _ => rehashAndInsert_unaffected n key value) fun _ => ?_
  exact (commutes_ofExcept _).bind fun _ => Unaffected.moveAssign _

variable [CopyValue K] (hK : ∀ a : K, Unaffected (Context.raised k) (CopyValue.copyValue a))
  (hV : ∀ a : V, Unaffected (Context.raised k) (CopyValue.copyValue a))

omit [CopyValue K] [CopyValue V] [MapKey K] in
/-- A map meets the context only where it copies keys and values. -/
theorem copying_unaffected {α : Type} [CopyValue α] {a : α}
    (ha : Unaffected (Context.raised k) (CopyValue.copyValue a)) :
    Unaffected (Bound.raised k) (copying a : BoundM (HashMap maxBuckets K V) α) := by
  intro s
  unfold CommutesAt copying
  obtain ⟨b, ctx, h, hf⟩ | ⟨e, ctx, h, hf⟩ := ha.runs s.ctx
  · rw [h, show CopyValue.copyValue a (s.raised k).ctx = _ from hf]
    exact .pure b
  · rw [h, show CopyValue.copyValue a (s.raised k).ctx = _ from hf]
    exact .throw e

omit [CopyValue K] in
include hV in
theorem insertOrAssignImpl_unaffected (key : K) (value : V) (withinKey : Bool) :
    Unaffected (Bound.raised k)
      (insertOrAssignImpl key value withinKey : BoundM (HashMap maxBuckets K V) Unit) := by
  refine .get_bind (fun _ => rfl) fun s => .ite (fun _ => insertNew_unaffected key value) ?_
  intro _
  split
  · exact .throw _
  · split
    · refine .ite (fun _ => .ite (fun _ => ?_) fun _ => .throw _) fun _ => Unaffected.moveAssign _
      exact (copying_unaffected (hV value)).bind fun _ => Unaffected.moveAssign _
    · exact insertNew_unaffected key value

include hK hV in
theorem insertOrAssign_unaffected (copyKey copyMapped : Bool) (key : K) (value : V)
    (withinKey : Bool) : Unaffected (Bound.raised k)
      (insertOrAssign copyKey copyMapped key value withinKey :
        BoundM (HashMap maxBuckets K V) Unit) := by
  refine Commutes.bind ?_ fun key => Commutes.bind ?_ fun value => ?_
  · exact .ite (fun _ => copying_unaffected (hK key)) fun _ => .pure key
  · exact .ite (fun _ => copying_unaffected (hV value)) fun _ => .pure value
  · exact insertOrAssignImpl_unaffected hV key value withinKey

include hK hV in
theorem copyLoop_unaffected (entries : List (K × V)) : Unaffected (Bound.raised k)
    (copyLoop entries : BoundM (HashMap maxBuckets K V) Unit) := by
  induction entries with
  | nil => exact .pure ()
  | cons entry entries ih =>
    refine (copying_unaffected (hK _)).bind fun _ => (copying_unaffected (hV _)).bind fun _ => ?_
    exact (insertOrAssign_unaffected hK hV false false _ _ false).bind fun _ => ih

include hK hV in
theorem copyFrom_unaffected (other : HashMap maxBuckets K V) (sameObject : Bool) :
    Unaffected (Bound.raised k)
      (copyFrom other sameObject : BoundM (HashMap maxBuckets K V) Unit) := by
  refine .get_bind (fun _ => rfl) fun s => .ite (fun _ => .pure ()) fun _ => ?_
  refine .ite (fun _ => Unaffected.moveAssign _) fun _ => (commutes_ofExcept _).bind fun _ => ?_
  refine (Unaffected.onTemporary _ (Vec.resizeDefault_unaffected _ _)).bind fun _ => ?_
  refine (Unaffected.onTemporary _ (copyLoop_unaffected hK hV _)).bind fun _ => ?_
  exact Unaffected.moveAssign _

end HashMap

namespace Persists

theorem skipFieldWith {skipGroup : ℕ → ParseM O Unit} (hg : ∀ f, Persists k (skipGroup f))
    (w : WireType) (f : ℕ) : Persists k (skipFieldWith skipGroup w f) := by
  cases w with
  | varint | i64 | len | i32 => exact .withField f (commutes_onReader _)
  | sgroup => exact .withField f (hg f)
  | egroup | reserved6 | reserved7 => exact commutes_failField _ f

/-- By induction on the bound, for every field number: a group inside takes one level more. -/
theorem skipGroupLoop (n f : ℕ) : Persists k (skipGroupLoop n f : ParseM O Unit) := by
  induction n generalizing f with
  | zero => exact .throw _
  | succ n ih =>
    refine (unwinding f (commutes_onReader _)).bind fun tag => .ite (fun _ => ?_) fun _ => ?_
    · exact popRecursion.bind fun _ => .ite (fun _ => commutes_failField _ f) fun _ => .pure ()
    · refine (unwinding f (skipFieldWith (fun g => ?_) _ _)).bind fun _ => ih f
      exact (withField g (pushRecursion g)).bind fun _ => ih g

/-- The bound is what is left to read, which is the same in both runs. -/
theorem skipField (w : WireType) (f : ℕ) : Persists k (skipField w f : ParseM O Unit) := fun s =>
  skipFieldWith (fun g => (withField g (pushRecursion g)).bind fun _ => skipGroupLoop _ g) w f s

/-- What a failure at the limit leaves in the storage need not be the same. -/
theorem failing (f : ℕ) {x : ParseM ByteVec Unit} (hx : Persists k x) :
    Persists k (failing f x) := by
  intro s
  unfold CommutesAt Protocyte.failing
  rw [Parse.raised_obj]
  cases h : x s with
  | ok u t =>
    rw [(hx s).ok h]
    exact .pure ()
  | error e t =>
    have hresize : Unaffected (Parse.raised k)
        (onBound (Vec.resizeForOverwrite 0 s.obj.size) : ParseM ByteVec Unit) :=
      commutes_onBound (Vec.resizeForOverwrite_unaffected 0 _)
    dsimp only
    rcases (hx s).error h with he | hf
    · split
      · exact .inl he
      · exact .inl he
    · rw [hf]
      dsimp only
      obtain ⟨u, v, h, hf⟩ | ⟨e', v, h, hf⟩ := hresize.runs t
      · rw [h, hf]
        exact .throw _
      · rw [h, hf]
        exact .throw _

theorem readUnknownValue {readGroup : ℕ → ParseM ByteVec Unit}
    (hg : ∀ f, Persists k (readGroup f)) (w : WireType) (f : ℕ) :
    Persists k (readUnknownValue readGroup w f) := by
  cases w with
  | varint =>
    exact (commutes_onReader _).bind fun _ => commutes_onBound (writeVarint_unaffected _)
  | i64 | i32 =>
    exact (commutes_onReader _).bind fun _ => commutes_onBound (writeFixed_unaffected _ _)
  | len =>
    refine (commutes_onReader _).bind fun _ => ?_
    refine (commutes_onBound (writeVarint_unaffected _)).bind fun _ => ?_
    exact UnknownFieldWriter.commutes_readFrom _
  | sgroup => exact hg f
  | egroup | reserved6 | reserved7 => exact commutes_failField _ f

theorem readUnknownFieldWith {readGroup : ℕ → ParseM ByteVec Unit}
    (hg : ∀ f, Persists k (readGroup f)) (w : WireType) (f : ℕ) :
    Persists k (readUnknownFieldWith readGroup w f) :=
  failing f ((commutes_onBound (writeTag_unaffected f w)).bind fun _ => readUnknownValue hg w f)

theorem readGroupLoop (n f : ℕ) : Persists k (readGroupLoop n f) := by
  induction n generalizing f with
  | zero => exact .throw _
  | succ n ih =>
    refine (popOnError (commutes_onReader _)).bind fun tag => .ite (fun _ => ?_) fun _ => ?_
    · refine popRecursion.bind fun _ => .ite (fun _ => commutes_failField _ _) fun _ => ?_
      exact commutes_onBound (writeTag_unaffected _ _)
    · refine (popOnError (readUnknownFieldWith (fun g => ?_) _ _)).bind fun _ => ih f
      exact (pushRecursion g).bind fun _ => ih g

theorem readUnknownField (w : WireType) (f : ℕ) : Persists k (readUnknownField w f) := fun s =>
  readUnknownFieldWith (fun g => (pushRecursion g).bind fun _ => readGroupLoop _ g) w f s

end Persists

end Protocyte
