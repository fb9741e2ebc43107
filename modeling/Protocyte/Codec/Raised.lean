import Protocyte.Codec.Parse
import Protocyte.Runtime.Raised

/-! A parse with a larger recursion limit. What it accepts or rejects with the smaller one, for
another reason than that limit, it accepts or rejects in the same way. -/
namespace Protocyte
open Foundation.Computation Foundation.LittleEndian

variable {O P T α β : Type} {k : ℕ} {storage : Storage} {Sub : ℕ → Type}

/-- The allocator answers both runs alike. -/
theorem takeBlock_unaffected (n : ℕ) : Unaffected (Context.raised k) (takeBlock n) := by
  intro ctx
  refine .ite (fun _ => .pure ()) fun _ => ?_
  have hgrants : (ctx.raised k).grants = ctx.grants := rfl
  cases hg : ctx.grants 0 with
  | true =>
    simp only [Context.allocate, hgrants, hg, if_true]
    exact .pure ()
  | false =>
    simp only [Context.allocate, hgrants, hg, Bool.false_eq_true, if_false]
    exact .throw _

namespace Items

theorem grow_unaffected (storage : Storage) (reserved : Bool) (n : ℕ) :
    Unaffected (Context.raised k) (grow storage reserved n) := by
  cases storage with
  | vector => exact .ite (fun _ => .pure ()) fun _ => takeBlock_unaffected n
  | array => exact .pure ()

theorem pushBack_unaffected (reserved : Bool) (value : α) :
    Unaffected (Bound.raised k) (pushBack reserved value : BoundM (Items α storage) Unit) := by
  intro s
  refine .dite (fun _ => ?_) fun _ => .throw _
  have hgrow := grow_unaffected (k := k) storage reserved 1
  obtain ⟨u, ctx, h, hf⟩ | ⟨e, ctx, h, hf⟩ := hgrow.runs s.ctx
  · rw [h, show grow storage reserved 1 (s.raised k).ctx = _ from hf]
    exact .pure ()
  · rw [h, show grow storage reserved 1 (s.raised k).ctx = _ from hf]
    exact .throw e

theorem append_unaffected (reserved : Bool) (values : List α) :
    Unaffected (Bound.raised k) (append reserved values : BoundM (Items α storage) Unit) := by
  intro s
  refine .ite (fun _ => .pure ()) fun _ => ?_
  cases hadd : checkedAdd s.obj.val.length values.length with
  | error e =>
    rw [show checkedAdd (s.raised k).obj.val.length values.length = _ from hadd]
    exact .throw e
  | ok total =>
    rw [show checkedAdd (s.raised k).obj.val.length values.length = _ from hadd]
    refine .dite (fun _ => ?_) fun _ => .throw _
    have hgrow := grow_unaffected (k := k) storage reserved values.length
    obtain ⟨u, ctx, h, hf⟩ | ⟨e, ctx, h, hf⟩ := hgrow.runs s.ctx
    · rw [h, show grow storage reserved values.length (s.raised k).ctx = _ from hf]
      exact .pure ()
    · rw [h, show grow storage reserved values.length (s.raised k).ctx = _ from hf]
      exact .throw e

theorem reserve_unaffected (n : ℕ) :
    Unaffected (Bound.raised k) (reserve n : BoundM (Items α storage) Unit) := by
  intro s
  refine .ite (fun _ => .throw _) fun _ => ?_
  rw [Bound.raised_obj]
  have hgrow := grow_unaffected (k := k) storage false (n - s.obj.val.length)
  obtain ⟨u, ctx, h, hf⟩ | ⟨e, ctx, h, hf⟩ := hgrow.runs s.ctx
  · rw [h, show grow storage false (n - s.obj.val.length) (s.raised k).ctx = _ from hf]
    exact .pure ()
  · rw [h, show grow storage false (n - s.obj.val.length) (s.raised k).ctx = _ from hf]
    exact .throw e

theorem resizeForOverwrite_unaffected (fill : α) (n : ℕ) :
    Unaffected (Bound.raised k) (resizeForOverwrite fill n : BoundM (Items α storage) Unit) := by
  intro s
  refine .dite (fun _ => .throw _) fun _ => ?_
  have hgrow := grow_unaffected (k := k) storage false (n - s.obj.val.length)
  obtain ⟨u, ctx, h, hf⟩ | ⟨e, ctx, h, hf⟩ := hgrow.runs s.ctx
  · rw [h, show grow storage false (n - (s.raised k).obj.val.length) (s.raised k).ctx = _ from hf]
    exact .pure ()
  · rw [h, show grow storage false (n - (s.raised k).obj.val.length) (s.raised k).ctx = _ from hf]
    exact .throw e

end Items

section Copies

variable {copier : Copier Sub}

/-- The copies a parse makes. -/
abbrev Copier.Unaffected (k : ℕ) (copier : Copier Sub) : Prop :=
  ∀ id source, Protocyte.Unaffected (Context.raised k) (copier.copyFrom id source)

theorem assignBytes_unaffected (text : Bool) (view : Bytes) :
    Unaffected (Context.raised k) (assignBytes text view) := by
  refine .get_bind (fun _ => rfl) fun ctx => .ite (fun _ => .throw _) fun _ => ?_
  refine .ite (fun _ => .throw _) fun _ => ?_
  exact (takeBlock_unaffected _).bind fun _ => .pure view

theorem copyValue_unaffected (hcopier : copier.Unaffected k) (kind : ValueKind)
    (v : kind.Carrier Sub) : Unaffected (Context.raised k) (kind.copyValue copier v) := by
  cases kind with
  | scalar => exact .pure v
  | string => exact assignBytes_unaffected true v
  | bytes => exact assignBytes_unaffected false v
  | message id boxed => exact hcopier id v

theorem copySingular_unaffected (hcopier : copier.Unaffected k) (kind : SingularKind)
    (v : kind.Carrier Sub) : Unaffected (Context.raised k) (kind.copySingular copier v) := by
  cases kind with
  | value kind =>
    cases kind with
    | scalar => exact .ite (fun _ => .throw _) fun _ => .pure v
    | string => exact assignBytes_unaffected true v
    | bytes => exact assignBytes_unaffected false v
    | message id boxed => exact (takeBlock_unaffected _).bind fun _ => hcopier id v
  | byteArray => exact .pure v

theorem copyItems_unaffected {copy : α → EStateM Error Context α}
    (hcopy : ∀ a, Unaffected (Context.raised k) (copy a)) (items : List α) :
    Unaffected (Context.raised k) (copyItems copy items) := by
  induction items with
  | nil => exact .pure _
  | cons item items ih => exact (hcopy item).bind fun _ => ih.bind fun _ => .pure _

/-- The two runs of the copy are compared, not the proofs that its result is well formed. -/
theorem copyMap_unaffected (hcopier : copier.Unaffected k) {maxBuckets : Usize} {key : KeyKind}
    {value : ValueKind} (m : HashMap maxBuckets (key.Carrier Sub) (value.Carrier Sub)) :
    Unaffected (Context.raised k) (copyMap copier m) := by
  intro ctx
  let _ := valueCopies copier key.value
  let _ := valueCopies copier value
  have hrun : Unaffected (Bound.raised k) (HashMap.copyFrom m false) :=
    HashMap.copyFrom_unaffected (copyValue_unaffected hcopier key.value)
      (copyValue_unaffected hcopier value) m false
  unfold CommutesAt copyMap
  dsimp only
  split
  · next u s h =>
    have hf := (hrun _).ok h
    split
    · next u' s' h' =>
      obtain ⟨-, rfl⟩ := EStateM.Result.ok.inj (hf.symm.trans h')
      exact .pure _
    · next e s' h' => cases hf.symm.trans h'
  · next e s h =>
    have hf := hrun.error h
    split
    · next u s' h' => cases hf.symm.trans h'
    · next e' s' h' =>
      obtain ⟨rfl, rfl⟩ := EStateM.Result.error.inj (hf.symm.trans h')
      exact .throw e

theorem fieldState_copyFrom_unaffected (hcopier : copier.Unaffected k) (number : ℕ)
    (kind : FieldKind) (v : FieldState Sub kind) :
    Unaffected (Context.raised k) (FieldState.copyFrom copier number kind v) := by
  cases kind with
  | implicit kind h => exact .withField number (copySingular_unaffected hcopier kind v)
  | explicit kind p o =>
    cases v with
    | none => exact .pure none
    | some v =>
      exact .withField number ((copySingular_unaffected hcopier kind v).bind fun _ => .pure _)
  | «repeated» kind p storage =>
    refine .withField number ((Items.grow_unaffected _ _ _).bind fun _ => ?_)
    exact (copyItems_unaffected (copyValue_unaffected hcopier kind) _).bind fun _ => .pure _
  | map key value maxBuckets => exact .withField number (copyMap_unaffected hcopier v.val)

theorem copyFieldsFrom_unaffected (hcopier : copier.Unaffected k) {M : MessageModel}
    (source : MessageData M Sub) (order : List M.Index) (m : MessageData M Sub) :
    Unaffected (Context.raised k) (source.copyFieldsFrom copier order m) := by
  induction order generalizing m with
  | nil => exact .pure m
  | cons i order ih => exact (fieldState_copyFrom_unaffected hcopier _ _ _).bind fun _ => ih _

/-- The limit on unknown fields is no recursion limit. -/
theorem copyStorage_unaffected (source : Bytes) :
    Unaffected (Context.raised k) (copyStorage source) := by
  intro ctx
  unfold CommutesAt copyStorage
  have hcopy := copyUnknownFields_unaffected (k := k) source.val ctx.limits.maxUnknownFieldBytes
  obtain ⟨u, s, h, hf⟩ | ⟨e, s, h, hf⟩ := hcopy.runs { ctx, obj := Vec.empty }
  · rw [h, show copyUnknownFields source.val (ctx.raised k).limits.maxUnknownFieldBytes
      { ctx := ctx.raised k, obj := Vec.empty } = _ from hf]
    exact .pure _
  · rw [h, show copyUnknownFields source.val (ctx.raised k).limits.maxUnknownFieldBytes
      { ctx := ctx.raised k, obj := Vec.empty } = _ from hf]
    exact .throw e

theorem copyFromInPlace_unaffected (hcopier : copier.Unaffected k) (preserve : Bool)
    {M : MessageModel} (source : MessageData M Sub) :
    Unaffected (Context.raised k) (source.copyFromInPlace copier preserve) := by
  refine (copyFieldsFrom_unaffected hcopier source _ _).bind fun m => .ite (fun _ => ?_) ?_
  · exact (copyStorage_unaffected _).bind fun _ => .pure _
  · exact fun _ => .pure m

theorem Message.copier_unaffected (S : Schema) (preserve : Bool) (levels : ℕ) :
    (Message.copier S preserve levels).Unaffected k := by
  induction levels with
  | zero => exact fun _ source => source.elim
  | succ levels ih => exact fun _ source => copyFromInPlace_unaffected ih preserve source

end Copies

namespace Persists

theorem zoom (l : Lens O P) {x : ParseM P α} (hx : Persists k x) : Persists k (zoom l x) := by
  intro s
  have hs := hx { ctx := s.ctx, obj := l.get s.obj, reader := s.reader }
  unfold CommutesAt Protocyte.zoom
  cases h : x { ctx := s.ctx, obj := l.get s.obj, reader := s.reader } with
  | ok a t =>
    rw [show x
      { ctx := (s.raised k).ctx
        obj := l.get (s.raised k).obj
        reader := (s.raised k).reader } = _ from hs.ok h]
    exact .pure a
  | error e t =>
    refine (hs.error h).imp_right fun hf => ?_
    rw [show x
      { ctx := (s.raised k).ctx
        obj := l.get (s.raised k).obj
        reader := (s.raised k).reader } = _ from hf]
    rfl

theorem inTemporary (init : T) {x : ParseM T α} (hx : Persists k x) :
    Persists k (inTemporary init x : ParseM O (α × T)) := by
  intro s
  have hs := hx { ctx := s.ctx, obj := init, reader := s.reader }
  unfold CommutesAt Protocyte.inTemporary
  cases h : x { ctx := s.ctx, obj := init, reader := s.reader } with
  | ok a t =>
    rw [show x { ctx := (s.raised k).ctx, obj := init, reader := (s.raised k).reader } = _ from
      hs.ok h]
    exact .pure _
  | error e t =>
    refine (hs.error h).imp_right fun hf => ?_
    rw [show x { ctx := (s.raised k).ctx, obj := init, reader := (s.raised k).reader } = _ from hf]
    rfl

theorem through (wrap : Reader → Reader) {x : ParseM O α} (hx : Persists k x) :
    Persists k (through wrap x) := by
  intro s
  have hs := hx { s with reader := wrap s.reader }
  unfold CommutesAt Protocyte.through
  cases h : x { s with reader := wrap s.reader } with
  | ok a t =>
    rw [show x { (s.raised k) with reader := wrap (s.raised k).reader } = _ from hs.ok h]
    exact .pure a
  | error e t =>
    refine (hs.error h).imp_right fun hf => ?_
    rw [show x { (s.raised k) with reader := wrap (s.raised k).reader } = _ from hf]
    rfl

/-- The level is given back on both exits of both runs. -/
theorem releasing {x : ParseM O α} (hx : Persists k x) : Persists k (releasing x) := by
  intro s
  unfold CommutesAt Protocyte.releasing
  cases h : x s with
  | ok a t =>
    rw [(hx s).ok h]
    simp only [Agrees, Exits, Parse.raised, Context.popRecursion_raised]
  | error e t =>
    refine ((hx s).error h).imp_right fun hf => ?_
    rw [hf]
    simp only [Parse.raised, Context.popRecursion_raised]

theorem located {x : ParseM O α} (hx : Persists k x) : Persists k (located x) := by
  intro s
  unfold CommutesAt Protocyte.located
  cases h : x s with
  | ok a t =>
    rw [(hx s).ok h]
    exact .pure a
  | error e t =>
    refine ((hx s).error h).imp_right fun hf => ?_
    rw [hf]
    rfl

theorem onContext {x : EStateM Error Context α} (hx : Unaffected (Context.raised k) x) :
    Persists k (onContext x : ParseM O α) := by
  intro s
  unfold CommutesAt Protocyte.onContext
  obtain ⟨a, ctx, h, hf⟩ | ⟨e, ctx, h, hf⟩ := hx.runs s.ctx
  · rw [h, show x (s.raised k).ctx = _ from hf]
    exact .pure a
  · rw [h, show x (s.raised k).ctx = _ from hf]
    exact .throw e

theorem checkReader (check : Reader → Except Error α) :
    Persists k (checkReader check : ParseM O α) := by
  intro s
  unfold CommutesAt Protocyte.checkReader
  rw [Parse.raised_reader]
  split
  · exact .pure _
  · exact .throw _

theorem onBound {x : BoundM O α} (hx : Unaffected (Bound.raised k) x) :
    Persists k (onBound x) :=
  commutes_onBound hx

theorem onReader (x : ReaderM α) : Persists k (onReader x : ParseM O α) := commutes_onReader x

theorem readSized (text : Bool) (size : Usize) :
    Persists k (readSized text size : ParseM O Bytes) := by
  refine .get_bind (fun _ => rfl) fun s => .ite (fun _ => commutes_failField _ 0) fun _ => ?_
  refine (checkReader _).bind fun _ => ?_
  refine (located (onContext (takeBlock_unaffected _))).bind fun _ => ?_
  refine (onReader _).bind fun buffer => .ite (fun _ => commutes_failField _ 0) fun _ => .pure _

theorem readLengthDelimited (text : Bool) :
    Persists k (readLengthDelimited text : ParseM O Bytes) :=
  (onReader _).bind fun size => readSized text size

theorem readStringField (w : WireType) (f : ℕ) :
    Persists k (readStringField w f : ParseM O Bytes) :=
  (onReader _).bind fun _ => withField f (readLengthDelimited true)

theorem readBytesField (w : WireType) (f : ℕ) :
    Persists k (readBytesField w f : ParseM O Bytes) :=
  (onReader _).bind fun _ => withField f (readLengthDelimited false)

theorem readBoundedBytes (max : Usize) (fixed : Bool) (f : ℕ) :
    Persists k (readBoundedBytes max fixed f : ParseM O (ArrayBytes max fixed)) := by
  refine (onReader _).bind fun size => ?_
  split
  · exact commutes_failField _ f
  · split
    · exact commutes_failField _ f
    · exact (checkReader _).bind fun _ => (onReader _).bind fun _ => .pure _

/-- The size is checked first, and then the level is taken. -/
theorem openNestedMessageSized (size f : ℕ) :
    Persists k (openNestedMessageSized size f : ParseM O Unit) :=
  .get_bind (fun _ => rfl) fun _ => .ite (fun _ => commutes_failField _ f) fun _ => pushRecursion f

theorem openNestedMessage (f : ℕ) : Persists k (openNestedMessage f : ParseM O ℕ) :=
  (withField f (onReader _)).bind fun size =>
    (withField f (openNestedMessageSized size f)).bind fun _ => .pure size

theorem nestedMessage (size : ℕ) {x : ParseM O α} (hx : Persists k x) :
    Persists k (nestedMessage size x) :=
  releasing (through _ (hx.bind fun a => (onReader _).bind fun _ => .pure a))

theorem handleUnknownField (preserve : Bool) (unknown : Lens O Bytes) (w : WireType) (f : ℕ) :
    Persists k (handleUnknownField preserve unknown w f) :=
  .ite (fun _ => zoom _ (readUnknownField w f)) fun _ => skipField w f

/-- An undeclared number of a closed enumeration is appended to the unknown fields. -/
theorem readAcceptedScalar (preserve : Bool) (unknown : Lens O Bytes) (t : ScalarType)
    (read : ReaderM t.Value) (f : ℕ) :
    Persists k (readAcceptedScalar preserve unknown t read f) := by
  refine .ite (fun _ => (onReader _).bind fun raw => .ite (fun _ => ?_) fun _ => .pure _) ?_
  · by_cases h : preserve = true
    · simp only [if_pos h]
      exact (zoom _ (onBound (MutableUnknownFieldSet.addVarint_unaffected _ _))).bind fun _ =>
        .pure _
    · simp only [if_neg h]
      exact .pure _
  · exact fun _ => (onReader read).bind fun _ => .pure _

theorem readFixedWidthPackedValues (t : ScalarType) (width byteCount f : ℕ) :
    Persists k (readFixedWidthPackedValues t width byteCount f :
      ParseM (Items t.Value storage) Unit) := by
  refine .ite (fun _ => .pure ()) fun _ => .ite (fun _ => commutes_failField _ f) fun _ => ?_
  refine (withField f (checkReader _)).bind fun _ => (withField f (onReader _)).bind fun _ => ?_
  refine .get_bind (fun _ => rfl) fun s => (withField f (commutes_ofExcept _)).bind fun total => ?_
  refine (withField f (onBound (Items.resizeForOverwrite_unaffected _ _))).bind fun _ u => ?_
  have hread : Unaffected (Parse.raised k)
      (Protocyte.withField f (Protocyte.onReader (Reader.read byteCount)) :
        ParseM (Items t.Value storage) _) :=
    .withField f (commutes_onReader _)
  unfold CommutesAt
  dsimp only
  obtain ⟨bytes, v, h, hf⟩ | ⟨e, v, h, hf⟩ := hread.runs u
  · rw [h, hf]
    exact .pure ()
  · rw [h, hf]
    exact .throw e

/-- By induction on the bound: one value, and the values after it. -/
theorem readPackedLoop (preserve : Bool) (t : ScalarType) (f n : ℕ) :
    Persists k (readPackedLoop preserve t f n : ParseM (Packed t storage) Unit) := by
  induction n with
  | zero => exact .throw _
  | succ n ih =>
    intro s
    refine .ite (fun _ => .pure ()) fun _ => ?_
    have hpush : ∀ value : t.Value, Persists k (do
        Protocyte.zoom Packed.valuesLens
          (Protocyte.onBound (Items.pushBack t.fixedWidth.isSome value))
        Protocyte.readPackedLoop preserve t f n : ParseM (Packed t storage) Unit) := fun value =>
      (zoom _ (onBound (Items.pushBack_unaffected _ value))).bind fun _ => ih
    have hread := readAcceptedScalar (k := k) preserve
      (Packed.unknownLens : Lens (Packed t storage) Bytes) t (readScalar t) f
    by_cases h : t.fixedWidth.isNone = true
    · simp only [if_pos h]
      refine ((onReader _).bind fun _ => hread.bind fun value => ?_) s
      cases value with
      | none => exact ih
      | some value => exact hpush value
    · simp only [if_neg h]
      refine hread.bind (fun value => ?_) s
      cases value with
      | none => exact ih
      | some value => exact hpush value

theorem readPackedValues (preserve : Bool) (t : ScalarType) (f : ℕ) :
    Persists k (readPackedValues preserve t f : ParseM (Packed t storage) Unit) := fun s =>
  readPackedLoop preserve t f _ s

theorem prepareCommit (count f : ℕ) :
    Persists k (prepareCommit count f : ParseM (Items α storage) Unit) := by
  refine .get_bind (fun _ => rfl) fun s => (commutes_ofExcept _).bind fun n => ?_
  cases storage with
  | vector => exact onBound (Items.reserve_unaffected n)
  | array => exact .ite (fun _ => commutes_failField _ f) fun _ => .pure ()

theorem commitValues (reserved : Bool) (values : List α) (f : ℕ) :
    Persists k (commitValues reserved values f : ParseM (Items α storage) Unit) := by
  cases storage with
  | vector => exact onBound (Items.append_unaffected reserved values)
  | array =>
    refine .get_bind (fun _ => rfl) fun s => (commutes_ofExcept _).bind fun n => ?_
    refine .ite (fun _ => commutes_failField _ f) fun _ => ?_
    exact onBound (Items.append_unaffected reserved values)

theorem chargePackedRun (t : ScalarType) (len f : ℕ) :
    Persists k (chargePackedRun t len f : ParseM O Unit) := by
  unfold Protocyte.chargePackedRun
  split
  · exact .ite (fun _ => commutes_failField _ f) fun _ => onReader _
  · exact .pure ()

theorem reservePackedRun (t : ScalarType) (len : ℕ) :
    Persists k (reservePackedRun t len : ParseM (Packed t storage) Unit) := by
  unfold Protocyte.reservePackedRun
  cases storage with
  | vector =>
    cases t.fixedWidth with
    | none => exact .pure ()
    | some width => exact zoom _ (onBound (Items.reserve_unaffected _))
  | array => exact .pure ()

theorem mergedStorage_unaffected (current addition : Bytes) :
    Unaffected (Context.raised k) (mergedStorage current addition) := by
  intro ctx
  unfold CommutesAt mergedStorage
  have hmerge := prepareUnknownFieldMerge_unaffected (k := k) current.val addition.val
  obtain ⟨u, s, h, hf⟩ | ⟨e, s, h, hf⟩ := hmerge.runs { ctx, obj := Vec.empty }
  · rw [h, show prepareUnknownFieldMerge current.val addition.val
      { ctx := ctx.raised k, obj := Vec.empty } = _ from hf]
    exact .pure _
  · rw [h, show prepareUnknownFieldMerge current.val addition.val
      { ctx := ctx.raised k, obj := Vec.empty } = _ from hf]
    exact .throw e

variable {packed : Bool} {t : ScalarType}

/-- The merged storage is prepared before either of the two changes. -/
theorem commitPackedEnum (preserve : Bool) (run : Packed t storage) (f : ℕ) :
    Persists k (commitPackedEnum preserve run f :
      ParseM (PackedSlot Sub t packed storage) Unit) := by
  refine (zoom _ (prepareCommit _ f)).bind fun _ => .ite (fun _ => ?_) fun _ => ?_
  · refine .get_bind (fun _ => rfl) fun s => ?_
    refine (onContext (mergedStorage_unaffected _ _)).bind fun merged => ?_
    exact (zoom _ (commitValues true _ f)).bind fun _ => .modifying fun _ => rfl
  · exact zoom _ (commitValues true _ f)

theorem readStagedPackedField (preserve : Bool) (len f : ℕ) :
    Persists k (readStagedPackedField preserve len f :
      ParseM (PackedSlot Sub t packed storage) Unit) := by
  refine (checkReader _).bind fun _ => (chargePackedRun t len f).bind fun _ => ?_
  refine Commutes.bind (inTemporary _ ?_) fun run => .ite (fun _ => ?_) fun _ => ?_
  · exact (reservePackedRun t len).bind fun _ => through _ (readPackedValues preserve t f)
  · exact commitPackedEnum preserve _ f
  · exact zoom _ (commitValues false _ f)

theorem readPackedField (preserve : Bool) (f : ℕ) :
    Persists k (readPackedField preserve f : ParseM (PackedSlot Sub t packed storage) Unit) := by
  refine (onReader _).bind fun len => ?_
  split
  · exact zoom _ (readFixedWidthPackedValues _ _ _ f)
  · exact readStagedPackedField preserve len f
  · exact readStagedPackedField preserve len f

/-- By induction on the bound: one field, and the fields after it. -/
theorem fieldLoop {step : Tag → ParseM O Unit} (hstep : ∀ tag, Persists k (step tag)) (n : ℕ) :
    Persists k (fieldLoop step n) := by
  induction n with
  | zero => exact .throw _
  | succ n ih =>
    intro s
    refine .ite (fun _ => .pure ()) fun _ => ?_
    exact ((onReader readTag).bind fun tag => (hstep tag).bind fun _ => ih) s

theorem forEachField {step : Tag → ParseM O Unit} (hstep : ∀ tag, Persists k (step tag)) :
    Persists k (forEachField step) := fun s =>
  fieldLoop hstep _ s

end Persists

/-- What the messages a message holds do with more levels. -/
structure MessageOps.Persist (k : ℕ) (ops : MessageOps Sub) : Prop where
  copier : ops.copier.Unaffected k
  mergeFieldsFrom (id : ℕ) : Persists k (ops.mergeFieldsFrom id)

namespace MessageOps.Persist

variable {ops : MessageOps Sub}

/-- The nested message is one level down in both runs. -/
theorem readMessagePartial (hops : ops.Persist k) (id f : ℕ) (out : Sub id) :
    Persists k (readMessagePartial ops id f out : ParseM O (Sub id)) := by
  refine .withField f ((Persists.openNestedMessage f).bind fun size => ?_)
  refine Persists.nestedMessage size ((Persists.through _ ?_).bind fun _ => .pure _)
  exact .inTemporary out (hops.mergeFieldsFrom id)

theorem readSingleValue (hops : ops.Persist k) (preserve : Bool) (unknown : Lens O Bytes)
    (w : WireType) (f : ℕ) (kind : SingularKind) (existing : Option (kind.Carrier Sub)) :
    Persists k (readSingleValue ops preserve unknown w f kind existing) := by
  cases kind with
  | byteArray max fixed => exact (Persists.readBoundedBytes max fixed f).bind fun _ => .pure _
  | value kind =>
    cases kind with
    | scalar t => exact .readAcceptedScalar preserve unknown t _ f
    | string => exact (Persists.readStringField w f).bind fun _ => .pure _
    | bytes => exact (Persists.readBytesField w f).bind fun _ => .pure _
    | message id boxed =>
      refine (Persists.onReader _).bind fun _ => (commutes_ofExcept _).bind fun fresh => ?_
      have hread : ∀ value, Persists k (do
          let value ← Protocyte.readMessagePartial ops id f value
          onContext (takeBlock (if boxed then 1 else 0))
          return some value : ParseM O (Option (Sub id))) := fun value =>
        (hops.readMessagePartial id f value).bind fun _ =>
          (Persists.onContext (takeBlock_unaffected _)).bind fun _ => .pure _
      cases existing with
      | none => exact hread fresh
      | some source => exact (Persists.onContext (hops.copier id source)).bind hread

theorem readRepeatedValue (hops : ops.Persist k) (preserve : Bool) (unknown : Lens O Bytes)
    (w : WireType) (f : ℕ) (kind : ValueKind) :
    Persists k (readRepeatedValue ops preserve unknown w f kind) := by
  cases kind with
  | scalar t => exact .readAcceptedScalar preserve unknown t _ f
  | string => exact (Persists.readStringField w f).bind fun _ => .pure _
  | bytes => exact (Persists.readBytesField w f).bind fun _ => .pure _
  | message id boxed =>
    refine (Persists.onReader _).bind fun _ => (commutes_ofExcept _).bind fun fresh => ?_
    exact (hops.readMessagePartial id f fresh).bind fun _ => .pure _

theorem readRepeatedField (hops : ops.Persist k) (preserve : Bool) (w : WireType) (f : ℕ)
    {kind : ValueKind} {packed : Bool} : Persists k (readRepeatedField ops preserve w f :
      ParseM (Slot Sub (.repeated kind packed storage)) Unit) := by
  refine (Persists.onReader _).bind fun _ => ?_
  refine (hops.readRepeatedValue preserve _ w f kind).bind fun value => ?_
  cases value with
  | none => exact .pure ()
  | some value => exact Persists.zoom _ (.onBound (Items.pushBack_unaffected false value))

theorem readMapMember (hops : ops.Persist k) (f : ℕ) (kind : ValueKind) (v : kind.Carrier Sub) :
    Persists k (readMapMember ops f kind v : ParseM O (kind.Carrier Sub)) := by
  cases kind with
  | scalar t => exact .onReader _
  | string => exact .readLengthDelimited true
  | bytes => exact .readLengthDelimited false
  | message id boxed => exact hops.readMessagePartial id f v

variable {key : KeyKind} {value : ValueKind} {maxBuckets : Usize}

theorem readEntryField (hops : ops.Persist k) (tag : Tag) :
    Persists k (readEntryField ops tag : ParseM (Entry Sub key value) Unit) := by
  refine .ite (fun _ => ?_) fun _ => .ite (fun _ => ?_) fun _ => Persists.skipField _ _
  · refine .get_bind (fun _ => rfl) fun s => (hops.readMapMember 1 _ _).bind fun read => ?_
    exact .modifying fun _ => rfl
  · refine .get_bind (fun _ => rfl) fun s => (hops.readMapMember 2 _ _).bind fun read => ?_
    exact .ite (fun _ => .modifying fun _ => rfl) fun _ => .modifying fun _ => rfl

theorem parseEntry (hops : ops.Persist k) :
    Persists k (parseEntry ops : ParseM (Entry Sub key value) Unit) :=
  .forEachField hops.readEntryField

/-- As for `copyMap`, the two runs of the insertion are compared. -/
theorem insertEntry (hops : ops.Persist k) (entry : Entry Sub key value) :
    Unaffected (Bound.raised k) (insertEntry ops.copier entry : BoundM
      {m : HashMap maxBuckets (key.Carrier Sub) (value.Carrier Sub) // m.WellFormed} Unit) := by
  intro s
  let _ := valueCopies ops.copier key.value
  let _ := valueCopies ops.copier value
  have hrun : Unaffected (Bound.raised k) (HashMap.insertOrAssign false false entry.key entry.value
      false : BoundM (HashMap maxBuckets (key.Carrier Sub) (value.Carrier Sub)) Unit) :=
    HashMap.insertOrAssign_unaffected (copyValue_unaffected hops.copier key.value)
      (copyValue_unaffected hops.copier value) false false _ _ false
  unfold CommutesAt Protocyte.insertEntry
  dsimp only
  split
  · next u t h =>
    have hf := (hrun _).ok h
    split
    · next u' t' h' =>
      obtain ⟨-, rfl⟩ := EStateM.Result.ok.inj (hf.symm.trans h')
      exact .pure _
    · next e t' h' => cases hf.symm.trans h'
  · next e t h =>
    have hf := hrun.error h
    split
    · next u t' h' => cases hf.symm.trans h'
    · next e' t' h' =>
      obtain ⟨rfl, rfl⟩ := EStateM.Result.error.inj (hf.symm.trans h')
      exact .throw e

theorem readNormalEntry (hops : ops.Persist k) (f : ℕ) (fresh : Entry Sub key value) :
    Persists k (readNormalEntry ops f fresh :
      ParseM (Slot Sub (.map key value maxBuckets)) Unit) := by
  refine (Persists.openNestedMessage f).bind fun size => ?_
  refine (Persists.nestedMessage size (.inTemporary fresh hops.parseEntry)).bind fun entry => ?_
  exact .ite (fun _ => .pure ()) fun _ => Persists.zoom _ (.onBound (hops.insertEntry _))

/-- The level of the entry is taken and given back around its bytes. -/
theorem readStagedEntry (hops : ops.Persist k) (f : ℕ) (fresh : Entry Sub key value) :
    Persists k (readStagedEntry ops f fresh :
      ParseM (Slot Sub (.map key value maxBuckets)) Unit) := by
  refine (Persists.onReader _).bind fun size => .get_bind (fun _ => rfl) fun s => ?_
  refine .ite (fun _ => commutes_failField _ f) fun _ => (Persists.checkReader _).bind fun _ => ?_
  refine (Persists.pushRecursion f).bind fun _ => ?_
  refine Commutes.bind (Persists.releasing ?_) fun staged => .ite (fun _ => ?_) fun _ => ?_
  · refine .get_bind (fun _ => rfl) fun s => ?_
    refine (Persists.onContext (takeBlock_unaffected _)).bind fun _ => ?_
    refine (Persists.onReader _).bind fun bytes => ?_
    exact (Persists.through _ (.inTemporary fresh hops.parseEntry)).bind fun _ => .pure _
  · exact Persists.zoom _ (.onBound (MutableUnknownFieldSet.addLengthDelimited_unaffected _ _))
  · exact Persists.zoom _ (.onBound (hops.insertEntry _))

theorem readMap (hops : ops.Persist k) (preserve : Bool) (w : WireType) (f : ℕ) :
    Persists k (readMap ops preserve w f :
      ParseM (Slot Sub (.map key value maxBuckets)) Unit) := by
  refine (Persists.onReader _).bind fun _ => (Persists.onReader _).bind fun _ => ?_
  refine (commutes_ofExcept _).bind fun fresh => ?_
  exact .ite (fun _ => hops.readStagedEntry f _) fun _ => hops.readNormalEntry f _

/-- One case for each kind of field. -/
theorem parseCase (hops : ops.Persist k) (preserve : Bool) (w : WireType) (f : ℕ)
    (kind : FieldKind) : Persists k (kind.parseCase ops preserve w f) := by
  cases kind with
  | implicit kind h =>
    refine (hops.readSingleValue preserve _ w f kind none).bind fun value => ?_
    cases value with
    | none => exact .pure ()
    | some value => exact .modifying fun _ => rfl
  | explicit kind p o =>
    refine .get_bind (fun _ => rfl) fun s => ?_
    refine (hops.readSingleValue preserve _ w f kind _).bind fun value => ?_
    cases value with
    | none => exact .pure ()
    | some value => exact .modifying fun _ => rfl
  | «repeated» kind p storage =>
    cases kind with
    | scalar t =>
      exact .ite (fun _ => Persists.readPackedField preserve f)
        fun _ => hops.readRepeatedField preserve w f
    | string | bytes | message => exact hops.readRepeatedField preserve w f
  | map => exact hops.readMap preserve w f

theorem mergeFieldFrom (hops : ops.Persist k) (preserve : Bool) (f : ℕ) (w : WireType)
    {M : MessageModel} :
    Persists k (MessageData.mergeFieldFrom ops preserve f w : ParseM (MessageData M Sub) Unit) := by
  unfold MessageData.mergeFieldFrom
  split
  · exact Persists.handleUnknownField preserve _ w f
  · refine Persists.zoom _ (.ite (fun _ => hops.parseCase preserve w f _) fun _ => ?_)
    exact Persists.handleUnknownField preserve _ w f

theorem mergeFieldsFrom_fields (hops : ops.Persist k) (preserve : Bool) {M : MessageModel} :
    Persists k (MessageData.mergeFieldsFrom ops preserve : ParseM (MessageData M Sub) Unit) :=
  Persists.forEachField fun _ => Persists.withField _ (hops.mergeFieldFrom preserve _ _)

end MessageOps.Persist

namespace Message

variable (S : Schema) (preserve : Bool)

/-- By induction on the levels, together with the copies of the messages below. -/
theorem mergeFieldsFrom_persists (levels id : ℕ) :
    Persists k (mergeFieldsFrom S preserve levels id) := by
  induction levels generalizing id with
  | zero => exact .throw _
  | succ levels ih =>
    exact MessageOps.Persist.mergeFieldsFrom_fields ⟨copier_unaffected S preserve levels, ih⟩
      preserve

theorem mergeFrom_persists (levels id : ℕ) : Persists k (mergeFrom S preserve levels id) := by
  intro s
  refine Commutes.bind (Persists.through _ ?_) (fun _ => ?_) s
  · exact (mergeFieldsFrom_persists S preserve levels id).bind fun _ => Persists.checkReader _
  · exact .get_bind (fun _ => rfl) fun _ => commutes_ofExcept _

theorem parseInto_persists (levels id : ℕ) : Persists k (parseInto S preserve levels id) := by
  intro s
  unfold CommutesAt parseInto
  cases create S levels id with
  | error e => exact .throw e
  | ok fresh =>
    have hmerge := mergeFrom_persists (k := k) S preserve levels id { s with obj := fresh }
    dsimp only
    cases h : mergeFrom S preserve levels id { s with obj := fresh } with
    | ok u t =>
      rw [show mergeFrom S preserve levels id { (s.raised k) with obj := fresh } = _ from
        hmerge.ok h]
      exact .pure ()
    | error e t =>
      refine (hmerge.error h).imp_right fun hf => ?_
      rw [show mergeFrom S preserve levels id { (s.raised k) with obj := fresh } = _ from hf]
      rfl

/-- More levels change no result but a rejection for nesting. -/
theorem parse_persists (levels id : ℕ) (input : List UInt8) :
    Commutes (Context.raised k) (fun e => e.code = .recursionLimit)
      (parse S preserve levels id input) := by
  intro ctx
  unfold CommutesAt parse
  cases create S levels id with
  | error e => exact .throw e
  | ok output =>
    have hparse := parseInto_persists (k := k) S preserve levels id
      { ctx, obj := output, reader := .slice { data := input, pos_le := start_le input } }
    dsimp only
    cases h : parseInto S preserve levels id
        { ctx, obj := output, reader := .slice { data := input, pos_le := start_le input } } with
    | ok u t =>
      rw [show parseInto S preserve levels id
        { ctx := ctx.raised k, obj := output,
          reader := .slice { data := input, pos_le := start_le input } } = _ from hparse.ok h]
      exact .pure _
    | error e t =>
      refine (hparse.error h).imp_right fun hf => ?_
      rw [show parseInto S preserve levels id
        { ctx := ctx.raised k, obj := output,
          reader := .slice { data := input, pos_le := start_le input } } = _ from hf]
      rfl

end Message

end Protocyte
