import Protocyte.Codec.Unknown

/-! What handling one field occurrence may leave behind: a failure leaves the message as it was. -/
namespace Protocyte
open Foundation.Computation

variable {Sub : ℕ → Type} {O α β : Type} {n : ℕ}

theorem moves_of_ok {x : ReaderM α} {y : ReaderM β} (hx : Moves x)
    (hok : ∀ r b r', y r = .ok b r' → ∃ a, x r = .ok a r')
    (herr : ∀ r e r', y r = .error e r' → x r = .error e r') : Moves y := by
  intro r
  refine Exits.intro ?_ ?_
  · intro b r' h
    obtain ⟨a, ha⟩ := hok r b r' h
    exact (hx r).ok ha
  · exact fun e r' h => (hx r).error (herr r e r' h)

theorem readSize_moves : Moves readSize := by
  refine moves_of_ok Forward.readLengthDelimitedSize.moves ?_ ?_
  · intro r b r' h
    unfold readSize at h
    split at h
    · next size r'' hr =>
      cases h
      exact ⟨size, hr⟩
    · cases h
  · intro r e r' h
    unfold readSize at h
    split at h
    · cases h
    · next e'' r'' hr =>
      cases h
      exact hr

theorem readBuffer_moves (count : ℕ) : Moves (Reader.readBuffer count) := by
  refine moves_of_ok (Forward.read count).moves ?_ ?_
  · intro r b r' h
    unfold Reader.readBuffer at h
    split at h
    · next bytes r'' hr =>
      cases h
      exact ⟨bytes, hr⟩
    · cases h
  · intro r e r' h
    unfold Reader.readBuffer at h
    split at h
    · cases h
    · next e'' r'' hr =>
      cases h
      exact hr

theorem finish_moves : Moves Reader.finish := by
  intro r
  cases r with
  | limited inner remaining => exact (Forward.skip remaining).moves _
  | slice s | parseBudget inner a b c d e | ref inner | staged s b => exact ⟨0, .refl _⟩

/-- A success has taken bytes. -/
def Shortens (x : ParseM O α) : Prop :=
  ∀ s a t, x s = .ok a t → t.reader.rest.length < s.reader.rest.length

theorem Contract.rest_le {E : O → O → Prop} {Q : O → α → O → Prop} {x : ParseM O α}
    (hx : Contract n E Q x) {s t : Parse O} {a : α} (h : x s = .ok a t) :
    t.reader.rest.length ≤ s.reader.rest.length := by
  have hs := hx s
  unfold ContractAt at hs
  exact (hs.ok h).1.rest_le

namespace Shortens

theorem onReader {x : ReaderM α} (hx : ∀ r a r', x r = .ok a r' →
    r'.rest.length < r.rest.length) : Shortens (onReader x : ParseM O α) := by
  intro s a t h
  obtain ⟨r, hr, rfl⟩ := onReader_eq_ok.mp h
  exact hx _ _ _ hr

theorem bind {E : O → O → Prop} {Q : O → β → O → Prop} {x : ParseM O α} {f : α → ParseM O β}
    (hx : Shortens x) (hf : ∀ a, Contract n E Q (f a)) : Shortens (x >>= f) := by
  intro s b u h
  obtain ⟨a, t, ht, hu⟩ := bind_eq_ok.mp h
  exact Nat.lt_of_le_of_lt ((hf a).rest_le hu) (hx s a t ht)

end Shortens

theorem readVarint_shortens (r : Reader) (a : ℕ) (r' : Reader) (h : readVarint r = .ok a r') :
    r'.rest.length < r.rest.length := by
  obtain ⟨bs, xs, hr, hv, rfl⟩ := readVarint_eq_ok.mp h
  have hpos := hv.1.length_pos
  rw [Reader.rest_advance, hr, List.drop_left, List.length_append]
  omega

theorem readFixed_shortens {width : ℕ} (hw : 0 < width) (r : Reader) (a : ℕ) (r' : Reader)
    (h : readFixed width r = .ok a r') : r'.rest.length < r.rest.length := by
  obtain ⟨bs, xs, hr, hl, -, rfl⟩ := readFixed_eq_ok.mp h
  rw [Reader.rest_advance, hr, List.length_drop, List.length_append]
  omega

theorem readScalar_shortens (t : ScalarType) (r : Reader) (a : t.Value) (r' : Reader)
    (h : readScalar t r = .ok a r') : r'.rest.length < r.rest.length := by
  cases t with
  | double | float | fixed64 | fixed32 | sfixed32 | sfixed64 =>
    obtain ⟨v, r'', hv, hr⟩ := bind_eq_ok.mp h
    cases hr
    exact readFixed_shortens (by decide) _ _ _ hv
  | int64 | uint64 | int32 | uint32 | openEnum | closedEnum values | sint32 | sint64 | bool =>
    obtain ⟨v, r'', hv, hr⟩ := bind_eq_ok.mp h
    cases hr
    exact readVarint_shortens _ _ _ hv

theorem readSized_quiet (text : Bool) (size : Usize) :
    Quiet n (readSized text size : ParseM O Bytes) := by
  refine Quiet.bind .get fun s => .ite (fun _ => ?_) fun _ => ?_
  · exact .failField 0 nofun nofun fun _ => rfl
  refine Quiet.bind (.canRead _) fun _ => ?_
  refine Quiet.bind (.located (.onContext (takeBlock_allocates _))) fun _ => ?_
  refine Quiet.bind (.onReader (readBuffer_moves _)) fun buffer => .ite (fun _ => ?_) fun _ => ?_
  · exact .failField 0 nofun nofun fun _ => rfl
  · exact .pure _ fun _ => rfl

theorem readLengthDelimited_quiet (text : Bool) :
    Quiet n (readLengthDelimited text : ParseM O Bytes) :=
  Quiet.bind (.onReader readSize_moves) fun size => readSized_quiet text size

theorem readStringField_quiet (w : WireType) (f : ℕ) :
    Quiet n (readStringField w f : ParseM O Bytes) :=
  Quiet.bind (.onReader (Forward.expectWireType w _ f).moves) fun _ =>
    .withField f (readLengthDelimited_quiet true)

theorem readBytesField_quiet (w : WireType) (f : ℕ) :
    Quiet n (readBytesField w f : ParseM O Bytes) :=
  Quiet.bind (.onReader (Forward.expectWireType w _ f).moves) fun _ =>
    .withField f (readLengthDelimited_quiet false)

theorem readBoundedBytes_quiet (max : Usize) (fixed : Bool) (f : ℕ) :
    Quiet n (readBoundedBytes max fixed f : ParseM O (ArrayBytes max fixed)) := by
  refine Quiet.bind (.onReader readSize_moves) fun size => ?_
  split
  · exact .failField f nofun nofun fun _ => rfl
  split
  · exact .failField f nofun nofun fun _ => rfl
  refine Quiet.bind (.canRead _) fun _ => ?_
  refine Quiet.bind (.onReader (readBuffer_moves _)) fun buffer => ?_
  exact .pure _ fun _ => rfl

theorem openNestedMessage_opens (f : ℕ) : Contract.Opens n (openNestedMessage f : ParseM O ℕ) := by
  refine .after (.withField f (.onReader Forward.readLengthDelimitedSize.moves)) fun size => ?_
  refine .map (.withField f (.after .get fun s => .ite ?_ (.push f))) fun _ => size
  exact .failField f nofun nofun

/-- What a message of `n` levels needs of the messages it holds. -/
structure MessageOps.Runs (n : ℕ) (ops : MessageOps Sub) : Prop where
  create (id : ℕ) (e : Error) (h : ops.create id = .error e) :
    e.code ≠ .recursionLimit ∧ (e.code = .diverged → n + 1 ≤ 1)
  merge (id : ℕ) : Protocyte.Runs n (ops.mergeFieldsFrom id)

theorem nestedMessage_quiet (f : ℕ) {x : ParseM O α} (hx : Quiet n x) :
    Quiet (n + 1) (do let size ← openNestedMessage f; nestedMessage size x : ParseM O α) := by
  refine (openNestedMessage_opens f).releasing (fun _ => rfl) fun size => .through_limited size ?_
  exact Quiet.bind hx fun a => Quiet.bind (.onReader finish_moves) fun _ => .pure a fun _ => rfl

theorem readMessagePartial_quiet {ops : MessageOps Sub} (hops : ops.Runs n) (id f : ℕ)
    (out : Sub id) : Quiet (n + 1) (readMessagePartial ops id f out : ParseM O (Sub id)) := by
  refine .withField f (nestedMessage_quiet f ?_)
  exact Quiet.bind (.through_ref (.inTemporary out (hops.merge id))) fun p => .pure p.2 fun _ => rfl

/-- A value that is read comes with no change; there is none when the number went to the unknown
fields. -/
def Undiverted (o : O) (a : Option α) (o' : O) : Prop := a.isSome = true → o' = o

theorem storage_same {unknown : Lens O Bytes} {o : O} {v : ByteVec}
    (h : SameItems ((unknown.comp storageLens).get o) v) :
    (unknown.comp storageLens).set v o = o := by
  have hbytes : (⟨v.items, v.size_le⟩ : Bytes) = unknown.get o := Subtype.ext h
  have hset : (unknown.comp storageLens).set v o = unknown.set ⟨v.items, v.size_le⟩ o := rfl
  rw [hset, hbytes, unknown.set_get]

/-- An addition to the unknown fields. -/
theorem Contract.unknown {unknown : Lens O Bytes} {x : ParseM ByteVec α}
    (hx : Contract n SameItems (fun o _ o' => Anything o o') x) :
    Atomic n (Protocyte.zoom (unknown.comp storageLens) x) :=
  .zoom _ hx (fun _ _ h => storage_same h) fun _ _ _ _ => trivial

private theorem accept_contract (preserve : Bool) (unknown : Lens O Bytes) (t : ScalarType)
    (f raw : ℕ) : Contract n Unchanged Undiverted (do
      let value := BitVec.ofNat t.width raw
      if t.closedInvalid value then
        if preserve then
          zoom (unknown.comp storageLens)
            (onBound (MutableUnknownFieldSet.addVarint f (UInt64.ofNat raw)))
        return none
      else
        return some value : ParseM O (Option t.Value)) := by
  have hnone : Contract n (fun _ _ => False) (fun _ b _ => b = none)
      (pure none : ParseM O (Option t.Value)) := .pure _ fun _ => rfl
  refine .ite (fun _ => .ite (fun _ => ?_) fun _ => .pure _ fun _ => nofun) fun _ => ?_
  · refine Contract.bind_sure (.unknown (.onBound (MutableUnknownFieldSet.addVarint_edits _ _)))
      (fun _ => hnone) ?_
    intro _ _ _ b _ _ hb
    rw [hb]
    exact nofun
  · exact .pure _ fun _ _ => rfl

theorem readAcceptedScalar_contract (preserve : Bool) (unknown : Lens O Bytes) (t : ScalarType)
    {read : ReaderM t.Value} (hread : Moves read) (f : ℕ) :
    Contract n Unchanged Undiverted (readAcceptedScalar preserve unknown t read f) := by
  refine .ite (fun _ => ?_) fun _ => ?_
  · exact Quiet.bind (.onReader Forward.readVarint.moves) (accept_contract preserve unknown t f)
  · exact Quiet.bind (.onReader hread) fun a => .pure _ fun _ _ => rfl

theorem readAcceptedScalar_shortens (preserve : Bool) (unknown : Lens O Bytes) (t : ScalarType)
    (f : ℕ) : Shortens (readAcceptedScalar preserve unknown t (readScalar t) f) := by
  have hsome : ∀ a : t.Value, Quiet 0 (pure (some a) : ParseM O (Option t.Value)) :=
    fun a => .pure _ fun _ => rfl
  unfold readAcceptedScalar
  split
  · exact (Shortens.onReader readVarint_shortens).bind (n := 0)
      (accept_contract preserve unknown t f)
  · exact (Shortens.onReader (readScalar_shortens t)).bind hsome

/-- A value that has been read without a change. -/
theorem Quiet.undiverted {x : ParseM O α} (hx : Quiet n x) :
    Contract n Unchanged Undiverted (do return some (← x)) :=
  Quiet.bind hx fun _ => .pure _ fun _ _ => rfl

theorem readSingleValue_contract {ops : MessageOps Sub} (hops : ops.Runs n) (preserve : Bool)
    (unknown : Lens O Bytes) (w : WireType) (f : ℕ) (kind : SingularKind)
    (existing : Option (kind.Carrier Sub)) : Contract (n + 1) Unchanged Undiverted
      (readSingleValue ops preserve unknown w f kind existing) := by
  cases kind with
  | byteArray max fixed => exact (readBoundedBytes_quiet max fixed f).undiverted
  | value kind =>
    cases kind with
    | scalar t =>
      exact readAcceptedScalar_contract preserve unknown t (Forward.readScalarField t w f).moves f
    | string => exact (readStringField_quiet w f).undiverted
    | bytes => exact (readBytesField_quiet w f).undiverted
    | message id boxed =>
      refine Quiet.bind (.onReader (Forward.expectWireType w _ f).moves) fun _ => ?_
      refine Quiet.bind (.ofExcept (hops.create id)) fun fresh => ?_
      have hread : ∀ value : Sub id, Contract (n + 1) Unchanged Undiverted (do
          let value ← readMessagePartial ops id f value
          onContext (takeBlock (if boxed then 1 else 0))
          return some value : ParseM O (Option (Sub id))) := by
        intro value
        refine Quiet.bind (readMessagePartial_quiet hops id f value) fun value => ?_
        refine Quiet.bind (.onContext (takeBlock_allocates _)) fun _ => ?_
        exact .pure _ fun _ _ => rfl
      cases existing with
      | none => exact Quiet.bind (.pure fresh fun _ => rfl) hread
      | some source => exact Quiet.bind (.onContext (ops.copier.allocates id source)) hread

namespace Items

variable {storage : Storage}

theorem pushBack_edits (reserved : Bool) (value : α) : Edits Unchanged
    (fun o _ o' => Anything o o') (pushBack reserved value : BoundM (Items α storage) Unit) := by
  intro s
  have hgrow := grow_allocates storage reserved 1 s.ctx
  unfold pushBack
  split
  · cases h : grow storage reserved 1 s.ctx with
    | ok a ctx => exact ⟨(hgrow.ok h).1, trivial⟩
    | error e ctx =>
      obtain ⟨hspent, hd, hr⟩ := hgrow.error h
      exact ⟨hspent, hr, hd, rfl⟩
  · exact ⟨.refl _, nofun, nofun, rfl⟩

theorem append_edits (reserved : Bool) (values : List α) : Edits Unchanged
    (fun o _ o' => Anything o o') (append reserved values : BoundM (Items α storage) Unit) := by
  intro s
  have hgrow := grow_allocates storage reserved values.length s.ctx
  unfold append
  split
  · exact ⟨.refl _, trivial⟩
  cases hsum : checkedAdd s.obj.val.length values.length with
  | error e =>
    obtain ⟨hr, hd⟩ := checkedAdd_codes hsum
    exact ⟨.refl _, hr, hd, rfl⟩
  | ok sum =>
    dsimp only
    split
    · cases h : grow storage reserved values.length s.ctx with
      | ok a ctx => exact ⟨(hgrow.ok h).1, trivial⟩
      | error e ctx =>
        obtain ⟨hspent, hd, hr⟩ := hgrow.error h
        exact ⟨hspent, hr, hd, rfl⟩
    · exact ⟨.refl _, nofun, nofun, rfl⟩

/-- Room for `count` items, and for no more than the storage may hold. -/
theorem reserve_edits (count : ℕ) : Edits Unchanged
    (fun o _ o' => Unchanged o o' ∧ count ≤ storage.capacity)
    (reserve count : BoundM (Items α storage) Unit) := by
  intro s
  have hgrow := grow_allocates storage false (count - s.obj.val.length) s.ctx
  unfold reserve
  by_cases hc : count > storage.capacity
  · rw [if_pos hc]
    exact ⟨.refl _, nofun, nofun, rfl⟩
  · rw [if_neg hc]
    cases h : grow storage false (count - s.obj.val.length) s.ctx with
    | ok a ctx => exact ⟨(hgrow.ok h).1, rfl, Nat.le_of_not_lt hc⟩
    | error e ctx =>
      obtain ⟨hspent, hd, hr⟩ := hgrow.error h
      exact ⟨hspent, hr, hd, rfl⟩

/-- Growing keeps the items there are. -/
theorem resizeForOverwrite_edits (fill : α) (count : ℕ) : Edits Unchanged
    (fun o _ o' => o.val.length ≤ count → o'.val.take o.val.length = o.val)
    (resizeForOverwrite fill count : BoundM (Items α storage) Unit) := by
  intro s
  have hgrow := grow_allocates storage false (count - s.obj.val.length) s.ctx
  unfold resizeForOverwrite
  by_cases hc : count > storage.capacity
  · rw [dif_pos hc]
    exact ⟨.refl _, nofun, nofun, rfl⟩
  · rw [dif_neg hc]
    cases h : grow storage false (count - s.obj.val.length) s.ctx with
    | ok a ctx =>
      refine ⟨(hgrow.ok h).1, fun hle => ?_⟩
      dsimp only
      rw [List.take_of_length_le hle, List.take_left]
    | error e ctx =>
      obtain ⟨hspent, hd, hr⟩ := hgrow.error h
      exact ⟨hspent, hr, hd, rfl⟩

end Items

theorem le_of_checkedAdd {m k sum : ℕ} (h : checkedAdd m k = .ok sum) : m ≤ sum := by
  unfold checkedAdd at h
  dsimp only at h
  split at h
  · cases h
  · next hlt =>
    cases h
    exact Nat.le_of_not_lt hlt

/-- A failed read in place cuts the vector back to what it was. -/
theorem readFixedWidthPackedValues_atomic {storage : Storage} (t : ScalarType)
    (width byteCount f : ℕ) : Atomic n (readFixedWidthPackedValues t width byteCount f :
      ParseM (Items t.Value storage) Unit) := by
  refine .ite (fun _ => .pure _ fun _ => trivial) fun _ => .ite (fun _ => ?_) fun _ => ?_
  · exact .failField f nofun nofun fun _ => rfl
  refine Quiet.bind (.withField f (.canRead _)) fun _ => ?_
  refine Quiet.bind (.withField f (.onReader (consume_moves _ _ _))) fun _ => ?_
  refine Contract.get_bind fun s => ContractAt.excepted f rfl (fun e => checkedAdd_codes) ?_
  intro total htotal
  have hle := le_of_checkedAdd htotal
  have hresize := (@Items.resizeForOverwrite_edits _ storage (0 : t.Value) total).contract n
  refine ContractAt.bind (hresize.withField f s) ?_
  intro _ u hsu hkept
  have hread : Quiet n (withField f (onReader (Reader.read byteCount)) :
    ParseM (Items t.Value storage) (List UInt8)) := .withField f (.onReader (Forward.read _).moves)
  have hu := hread u
  unfold ContractAt at hu
  cases h : withField f (onReader (Reader.read byteCount)) u with
  | ok bytes v =>
    obtain ⟨⟨hctx, hreader⟩, -⟩ := hu.ok h
    exact ⟨⟨hctx, hreader⟩, trivial⟩
  | error e v =>
    obtain ⟨he, hv⟩ := hu.error h
    refine ⟨he.mono (hsu.ctx.balanced.shallow_iff n).mp, Subtype.ext ?_⟩
    change v.obj.val.take s.obj.val.length = s.obj.val
    rw [hv]
    exact hkept hle

theorem RunsAt.of_contract {E : O → O → Prop} {x : ParseM O α}
    (hx : ∀ n, Contract n E (fun o _ o' => E o o') x) (s : Parse O) : RunsAt E x s := by
  refine (hx (s.ctx.limits.maxRecursionDepth + 2) s).mono ?_ (fun _ _ h => h) fun _ _ _ h => h
  intro h
  unfold Context.Shallow at h
  omega

/-- A step of a loop that takes bytes. -/
theorem RunsAt.bind_shortens {E : O → O → Prop} [IsPreorder O E] {x : ParseM O α}
    {f : α → ParseM O β} {s : Parse O} (hx : RunsAt E x s) (hshort : Shortens x)
    (hf : ∀ a t, t.reader.rest.length < s.reader.rest.length → RunsAt E (f a) t) :
    RunsAt E (x >>= f) s := by
  unfold RunsAt ContractAt at hx
  refine Exits.bind (Q := fun a t => x s = .ok a t ∧ Advanced s t ∧ E s.obj t.obj) ?_ ?_
  · exact Exits.intro (fun a t h => ⟨h, hx.ok h⟩) fun e t h => hx.error h
  · intro a t ⟨h, ht, ho⟩
    refine Exits.mono (hf a t (hshort s a t h)) ?_ ?_
    · exact fun _ _ hu => ⟨ht.trans hu.1, IsTrans.trans _ _ _ ho hu.2⟩
    · exact fun _ _ hu => ⟨.of_ran ht.ctx hu.1, IsTrans.trans _ _ _ ho hu.2⟩

theorem readPackedLoop_runs {storage : Storage} (preserve : Bool) (t : ScalarType) (f m : ℕ)
    (s : Parse (Packed t storage)) (hs : s.reader.rest.length < m) :
    RunsAt Anything (readPackedLoop preserve t f m) s := by
  induction m generalizing s with
  | zero => exact absurd hs (Nat.not_lt_zero _)
  | succ m ih =>
    unfold RunsAt ContractAt readPackedLoop
    split
    · exact ⟨.refl s, trivial⟩
    have hnone : ∀ u : Parse (Packed t storage), u.reader.rest.length < s.reader.rest.length →
        RunsAt Anything (readPackedLoop preserve t f m) u := fun u hu => ih u (by omega)
    have hsome : ∀ (value : t.Value) (u : Parse (Packed t storage)),
        u.reader.rest.length < s.reader.rest.length → RunsAt Anything (do
          zoom Packed.valuesLens (onBound (Items.pushBack t.fixedWidth.isSome value))
          readPackedLoop preserve t f m) u := by
      intro value u hu
      have hpush : RunsAt Anything (zoom Packed.valuesLens
          (onBound (Items.pushBack t.fixedWidth.isSome value)) :
            ParseM (Packed t storage) Unit) u :=
        .of_contract (fun k => .zoom _ ((Items.pushBack_edits _ value).contract k)
          (fun _ _ _ => trivial) fun _ _ _ _ => trivial) u
      refine hpush.bind fun _ v hv => hnone v ?_
      have hle := hv.rest_le
      omega
    -- a value takes bytes, whether it is kept or not
    have htail : ∀ {next : Option t.Value → ParseM (Packed t storage) Unit},
        (∀ u, u.reader.rest.length < s.reader.rest.length → RunsAt Anything (next none) u) →
        (∀ value u, u.reader.rest.length < s.reader.rest.length →
          RunsAt Anything (next (some value)) u) →
        ∀ u, u.reader.rest.length ≤ s.reader.rest.length → RunsAt Anything
          (readAcceptedScalar preserve Packed.unknownLens t (readScalar t) f >>= next) u := by
      intro next hn hs u hu
      have haccepted : RunsAt Anything
          (readAcceptedScalar preserve Packed.unknownLens t (readScalar t) f) u := .of_contract
        (fun _ => (readAcceptedScalar_contract _ _ t (Forward.readScalar t).moves f).runs) u
      refine haccepted.bind_shortens (readAcceptedScalar_shortens _ _ t f) ?_
      intro a v hv
      cases a with
      | none => exact hn v (by omega)
      | some value => exact hs value v (by omega)
    refine Exits.ite (fun _ => ?_) fun _ => htail hnone hsome s (Nat.le_refl _)
    have hconsume : RunsAt Anything (onReader (Reader.consumeRepeatedElements 1 f) :
        ParseM (Packed t storage) Unit) s :=
      .of_contract (fun _ => (Contract.onReader (consume_moves _ _ _)).runs) s
    exact hconsume.bind fun _ u hu => htail hnone hsome u hu.rest_le

theorem readPackedValues_runs {storage : Storage} (preserve : Bool) (t : ScalarType) (f : ℕ) :
    Runs n (readPackedValues preserve t f : ParseM (Packed t storage) Unit) := fun s =>
  (readPackedLoop_runs preserve t f _ s (Nat.lt_succ_self _)).mono False.elim (fun _ _ h => h)
    fun _ _ _ h => h

/-- There is room for `count` more items. -/
def Items.Fits {storage : Storage} (count : ℕ) (items : Items α storage) : Prop :=
  items.val.length + count ≤ storage.capacity

/-- Items there is room for are appended without fail, when the room has been reserved. -/
theorem Items.append_sure {storage : Storage} (values : List α) :
    Edits (fun o _ => ¬o.Fits values.length) (fun o _ o' => Anything o o')
      (append true values : BoundM (Items α storage) Unit) := by
  intro s
  by_cases hfits : s.obj.Fits values.length
  swap
  · exact (append_edits true values s).mono (fun _ _ h => h)
      fun _ _ h => ⟨h.1, h.2.1, h.2.2.1, hfits⟩
  have hle : s.obj.val.length + values.length ≤ usizeMax := Nat.le_trans hfits storage.capacity_le
  unfold append
  split
  · exact ⟨.refl _, trivial⟩
  rw [checkedAdd_of_le hle]
  dsimp only
  split
  · cases storage with
    | vector maxSize => exact ⟨.refl _, trivial⟩
    | array max fixed => exact ⟨.refl _, trivial⟩
  · next hn => exact absurd hfits hn

theorem prepareCommit_contract {storage : Storage} {count : ℕ} (hcount : count ≤ usizeMax) (f : ℕ) :
    Contract n Unchanged (fun o _ o' => Unchanged o o' ∧ o.Fits count)
      (prepareCommit count f : ParseM (Items α storage) Unit) := by
  refine Contract.get_bind fun s => ?_
  have hsize : s.obj.val.length ≤ usizeMax := Nat.le_trans s.obj.2 storage.capacity_le
  by_cases hsum : s.obj.val.length + count ≤ usizeMax
  · rw [checkedAdd_of_le hsum]
    cases storage with
    | vector maxSize =>
      exact Exits.mono ((Items.reserve_edits _).contract n s) (fun _ _ h => ⟨h.1, h.2.1, h.2.2⟩)
        fun _ _ h => h
    | array max fixed =>
      refine Exits.ite (fun _ => ?_) fun hle => ?_
      · exact ⟨.of_spent (.refl _) nofun nofun, rfl⟩
      · exact ⟨.refl s, rfl, Nat.le_of_not_lt hle⟩
  · rw [checkedAdd_of_gt hsize hcount (Nat.lt_of_not_le hsum)]
    exact ⟨.of_spent (.refl _) nofun nofun, rfl⟩

theorem checkedAdd_quiet (m k : ℕ) : Quiet n (ofExcept (checkedAdd m k) : ParseM O ℕ) := by
  refine .ofExcept fun e h => ?_
  obtain ⟨hr, hd⟩ := checkedAdd_codes h
  exact ⟨hr, fun he => absurd he hd⟩

theorem commitValues_atomic {storage : Storage} (reserved : Bool) (values : List α) (f : ℕ) :
    Atomic n (commitValues reserved values f : ParseM (Items α storage) Unit) := by
  have happend := (@Items.append_edits _ storage reserved values).contract n
  cases storage with
  | vector maxSize => exact happend
  | array max fixed =>
    refine Quiet.bind .get fun s => Quiet.bind (checkedAdd_quiet _ _) fun k => ?_
    exact .ite (fun _ => .failField f nofun nofun fun _ => rfl) fun _ => happend

/-- Values there is room for are committed without fail. -/
theorem commitValues_sure {storage : Storage} (values : List α) (f : ℕ) :
    Contract n (fun o _ => ¬o.Fits values.length) (fun o _ o' => Anything o o')
      (commitValues true values f : ParseM (Items α storage) Unit) := by
  intro s
  by_cases hfits : s.obj.Fits values.length
  swap
  · exact Exits.mono (commitValues_atomic true values f s) (fun _ _ h => h)
      fun _ _ h => ⟨h.1, hfits⟩
  have happend := (@Items.append_sure _ storage values).contract n
  cases storage with
  | vector maxSize => exact happend s
  | array max fixed =>
    have hle : s.obj.val.length + values.length ≤ usizeMax := Nat.le_trans hfits max.2
    refine ContractAt.get_bind (ContractAt.ofExcept_bind (checkedAdd_of_le hle) ?_)
    exact Exits.ite (fun hgt => absurd hfits (Nat.not_le_of_lt hgt)) fun _ => happend s

section
variable {packed : Bool} {storage : Storage} {t : ScalarType}

/-- Both storages are prepared before either changes. -/
theorem commitPackedEnum_atomic (preserve : Bool) (run : Packed t storage) (f : ℕ) :
    Atomic n (commitPackedEnum preserve run f : ParseM (PackedSlot Sub t packed storage) Unit) := by
  have hcount : run.values.val.length ≤ usizeMax := Nat.le_trans run.values.2 storage.capacity_le
  have hprepare : Contract n Unchanged (fun o _ o' => Unchanged o o' ∧
      @Items.Fits _ storage run.values.val.length o.value)
      (zoom Slot.valueLens (prepareCommit (α := t.Value) run.values.val.length f) :
        ParseM (PackedSlot Sub t packed storage) Unit) := by
    refine .zoom _ (prepareCommit_contract hcount f)
      (fun _ _ h => Slot.valueLens.set_unchanged h) ?_
    exact fun _ _ _ h => ⟨Slot.valueLens.set_unchanged h.1, h.2⟩
  have hcommit : Contract n (fun o _ => ¬@Items.Fits _ storage run.values.val.length o.value)
      (fun o _ o' => Anything o o') (zoom Slot.valueLens (commitValues true run.values.val f) :
        ParseM (PackedSlot Sub t packed storage) Unit) :=
    .zoom _ (commitValues_sure _ f) (fun _ _ h => h) fun _ _ _ _ => trivial
  -- from here on nothing may fail but the preparation of the other storage
  refine hprepare.bind_anything (F := fun _ m o' =>
    @Items.Fits _ storage run.values.val.length m.value → o' = m) ?_ ?_
  · intro _
    have hsure : Contract n
        (fun m o' => @Items.Fits _ storage run.values.val.length m.value → o' = m)
        (fun o _ o' => Anything o o') (zoom Slot.valueLens (commitValues true run.values.val f) :
          ParseM (PackedSlot Sub t packed storage) Unit) :=
      hcommit.mono (fun _ _ h hfits => absurd hfits h) fun _ _ _ h => h
    refine .ite (fun _ => ?_) fun _ => hsure
    refine Contract.quiet_bind .get (fun _ _ => rfl) fun s => ?_
    refine Contract.quiet_bind (.onContext (mergedStorage_allocates _ _)) (fun _ _ => rfl) ?_
    intro merged
    refine hsure.bind_anything (F := fun _ _ _ => False) (fun _ => ?_) fun _ _ _ _ _ h => h.elim
    refine Contract.modifying _ ?_ ?_
    · exact fun _ => ⟨rfl, rfl⟩
    · exact fun _ => trivial
  · intro o _ m o' ⟨hm, hfits⟩ h
    rw [hm] at h
    exact h hfits

theorem reservePackedRun_runs (t : ScalarType) (len : ℕ) :
    Runs n (reservePackedRun t len : ParseM (Packed t storage) Unit) := by
  cases storage with
  | array max fixed => exact .pure _ fun _ => trivial
  | vector maxSize =>
    unfold reservePackedRun
    cases t.fixedWidth with
    | none => exact .pure _ fun _ => trivial
    | some width =>
      exact .zoom _ ((Items.reserve_edits _).contract n) (fun _ _ _ => trivial)
        fun _ _ _ _ => trivial

/-- The values are read into temporaries; the field only changes in the commit. -/
theorem readStagedPackedField_atomic (preserve : Bool) (len f : ℕ) :
    Atomic n (readStagedPackedField preserve len f :
      ParseM (PackedSlot Sub t packed storage) Unit) := by
  have hcharge : Quiet n (chargePackedRun t len f :
      ParseM (PackedSlot Sub t packed storage) Unit) := by
    unfold chargePackedRun
    split
    · exact .ite (fun _ => .failField f nofun nofun fun _ => rfl)
        fun _ => .onReader (consume_moves _ _ _)
    · exact .pure _ fun _ => rfl
  refine Quiet.bind (.canRead len) fun _ => Quiet.bind hcharge fun _ => ?_
  refine Quiet.bind (.inTemporary _ ((reservePackedRun_runs t len).bind fun _ =>
    .through_limited len (readPackedValues_runs preserve t f))) fun p => ?_
  refine .ite (fun _ => commitPackedEnum_atomic preserve p.2 f) fun _ => ?_
  exact .zoom_atomic _ (commitValues_atomic _ _ f)

theorem readPackedField_atomic (preserve : Bool) (f : ℕ) :
    Atomic n (readPackedField preserve f : ParseM (PackedSlot Sub t packed storage) Unit) := by
  refine Quiet.bind (.onReader Forward.readLengthDelimitedSize.moves) fun len => ?_
  split
  · exact .zoom_atomic _ (readFixedWidthPackedValues_atomic t _ len f)
  · exact readStagedPackedField_atomic preserve len f
  · exact readStagedPackedField_atomic preserve len f

end

/-- What is done with a value, when there is one. -/
theorem Contract.undiverted {x : ParseM O (Option α)} {f : Option α → ParseM O β}
    (hx : Contract n Unchanged Undiverted x)
    (hnone : Contract n (fun _ _ => False) (fun o _ o' => Anything o o') (f none))
    (hsome : ∀ a, Atomic n (f (some a))) : Atomic n (x >>= f) := by
  refine hx.bind_anything (F := fun a m o' => a.isSome = true ∧ o' = m) ?_ ?_
  · intro a
    cases a with
    | none => exact hnone.mono (fun _ _ h => h.elim) fun _ _ _ h => h
    | some a => exact (hsome a).mono (fun _ _ h => ⟨rfl, h⟩) fun _ _ _ h => h
  · intro o a m o' hm ⟨ha, ho⟩
    exact ho.trans (hm ha)

theorem readRepeatedValue_contract {ops : MessageOps Sub} (hops : ops.Runs n) (preserve : Bool)
    (unknown : Lens O Bytes) (w : WireType) (f : ℕ) (kind : ValueKind) :
    Contract (n + 1) Unchanged Undiverted (readRepeatedValue ops preserve unknown w f kind) := by
  cases kind with
  | scalar t =>
    exact readAcceptedScalar_contract preserve unknown t (Forward.readScalarField t w f).moves f
  | string => exact (readStringField_quiet w f).undiverted
  | bytes => exact (readBytesField_quiet w f).undiverted
  | message id boxed =>
    refine Quiet.bind (.onReader (Forward.expectWireType w _ f).moves) fun _ => ?_
    exact Quiet.bind (.ofExcept (hops.create id)) fun value =>
      (readMessagePartial_quiet hops id f value).undiverted

theorem readRepeatedField_atomic {kind : ValueKind} {packed : Bool} {storage : Storage}
    {ops : MessageOps Sub} (hops : ops.Runs n) (preserve : Bool) (w : WireType) (f : ℕ) :
    Atomic (n + 1) (readRepeatedField ops preserve w f :
      ParseM (Slot Sub (.repeated kind packed storage)) Unit) := by
  refine Quiet.bind (.onReader (consume_moves _ _ _)) fun _ => ?_
  refine (readRepeatedValue_contract hops preserve _ w f kind).undiverted ?_ ?_
  · exact .pure _ fun _ => trivial
  · exact fun value => .zoom_atomic _ ((Items.pushBack_edits _ _).contract _)

/-- The loop over the fields of a message. -/
theorem fieldLoop_runs {step : Tag → ParseM O Unit}
    (hstep : ∀ tag, tag.fieldNumber ≤ Foundation.Wire.maxNumber → Runs n (step tag)) (m : ℕ)
    (s : Parse O) (hs : s.reader.rest.length < m) :
    ContractAt (s.ctx.Shallow n) Anything (fun o _ o' => Anything o o') (fieldLoop step m) s := by
  induction m generalizing s with
  | zero => exact absurd hs (Nat.not_lt_zero _)
  | succ m ih =>
    unfold ContractAt fieldLoop
    split
    · exact ⟨.refl s, trivial⟩
    refine Exits.bind ((readTag_exits s).mono (fun _ _ h => h) ?_) ?_
    · exact fun _ _ h => ⟨h.1.mono False.elim, trivial⟩
    intro tag t ⟨ht, _, hnumber, hlt⟩
    refine Exits.bind (Q := fun _ u => Advanced t u) (Exits.mono (hstep tag hnumber t) ?_ ?_) ?_
    · exact fun _ _ h => h.1
    · exact fun _ _ h => ⟨.of_ran ht.ctx (h.1.mono (ht.ctx.balanced.shallow_iff n).mp), trivial⟩
    intro _ u hu
    have hsu := ht.trans hu
    have hle := hu.rest_le
    refine Exits.mono (ih u (by omega)) ?_ ?_
    · exact fun _ _ h => ⟨hsu.trans h.1, trivial⟩
    · exact fun _ _ h => ⟨.of_ran hsu.ctx (h.1.mono (hsu.ctx.balanced.shallow_iff n).mp), trivial⟩

theorem forEachField_runs {step : Tag → ParseM O Unit}
    (hstep : ∀ tag, tag.fieldNumber ≤ Foundation.Wire.maxNumber → Runs n (step tag)) :
    Runs n (forEachField step) :=
  fun s => fieldLoop_runs hstep _ s (Nat.lt_succ_self _)

theorem readMapMember_quiet {ops : MessageOps Sub} (hops : ops.Runs n) (f : ℕ) (kind : ValueKind)
    (value : kind.Carrier Sub) :
    Quiet (n + 1) (readMapMember ops f kind value : ParseM O (kind.Carrier Sub)) := by
  cases kind with
  | scalar t => exact .onReader (Forward.readScalar t).moves
  | string => exact readLengthDelimited_quiet true
  | bytes => exact readLengthDelimited_quiet false
  | message id boxed => exact readMessagePartial_quiet hops id f value

section
variable {key : KeyKind} {value : ValueKind} {maxBuckets : Usize} {ops : MessageOps Sub}

theorem parseEntry_runs (hops : ops.Runs n) :
    Runs (n + 1) (parseEntry ops : ParseM (Entry Sub key value) Unit) := by
  refine forEachField_runs fun tag _ => .ite (fun _ => ?_) fun _ => .ite (fun _ => ?_) fun _ => ?_
  · refine Quiet.bind_runs .get fun s => Quiet.bind_runs (readMapMember_quiet hops 1 _ _) ?_
    intro read
    refine Contract.modifying _ ?_ ?_
    · exact fun _ => ⟨rfl, rfl⟩
    · exact fun _ => trivial
  · refine Quiet.bind_runs .get fun s => Quiet.bind_runs (readMapMember_quiet hops 2 _ _) ?_
    refine fun read => .ite (fun _ => ?_) fun _ => ?_
    · refine Contract.modifying _ ?_ ?_
      · exact fun _ => ⟨rfl, rfl⟩
      · exact fun _ => trivial
    · refine Contract.modifying _ ?_ ?_
      · exact fun _ => ⟨rfl, rfl⟩
      · exact fun _ => trivial
  · exact (skipField_quiet _ _ _).runs

theorem insertEntry_edits (copier : Copier Sub) (entry : Entry Sub key value) : Edits Unchanged
    (fun o _ o' => Anything o o') (insertEntry copier entry :
      BoundM {m : HashMap maxBuckets (key.Carrier Sub) (value.Carrier Sub) // m.WellFormed}
        Unit) := by
  intro s
  let _ := valueCopies copier key.value
  let _ := valueCopies copier value
  have hexits := HashMap.insertOrAssign_moved_exits (s := { ctx := s.ctx, obj := s.obj.val })
    maxBuckets.2 s.obj.2 entry.key entry.value
  unfold insertEntry
  dsimp only
  split
  · next h => exact ⟨(Exits.ok hexits h).1, trivial⟩
  · next h =>
    obtain ⟨hspent, ho, he, -⟩ := Exits.error hexits h
    exact ⟨hspent, he.not_recursionLimit, he.not_diverged, Subtype.ext ho⟩

theorem readNormalEntry_atomic (hops : ops.Runs n) (f : ℕ) (fresh : Entry Sub key value) :
    Atomic (n + 1) (readNormalEntry ops f fresh :
      ParseM (Slot Sub (.map key value maxBuckets)) Unit) := by
  have hread : Quiet (n + 2) (do
      let size ← openNestedMessage f
      nestedMessage size (inTemporary fresh (parseEntry ops)) :
        ParseM (Slot Sub (.map key value maxBuckets)) (Unit × Entry Sub key value)) :=
    nestedMessage_quiet f (.inTemporary fresh (parseEntry_runs hops))
  refine Contract.assoc (Quiet.bind hread.weaken fun p => ?_)
  exact .ite (fun _ => .pure _ fun _ => trivial) fun _ =>
    .zoom_atomic _ ((insertEntry_edits _ _).contract _)

/-- The entry's bytes go to the unknown fields as a whole. -/
theorem readStagedEntry_atomic (hops : ops.Runs n) (f : ℕ) (fresh : Entry Sub key value) :
    Atomic (n + 1) (readStagedEntry ops f fresh :
      ParseM (Slot Sub (.map key value maxBuckets)) Unit) := by
  refine Quiet.bind (.onReader readSize_moves) fun size => Quiet.bind .get fun s => ?_
  refine .ite (fun _ => .failField f nofun nofun fun _ => rfl) fun _ => ?_
  refine Quiet.bind (.canRead _) fun _ => Contract.assoc (Quiet.bind (Contract.weaken ?_) ?_)
  · refine (Contract.Opens.push f).releasing (fun _ => rfl) fun _ => ?_
    refine Quiet.bind .get fun s => Quiet.bind (.onContext (takeBlock_allocates _)) fun _ => ?_
    refine Quiet.bind (.onReader (readBuffer_moves _)) fun staged => ?_
    refine Quiet.bind (.through_staged _ (.inTemporary fresh (parseEntry_runs hops))) fun p => ?_
    exact .pure _ fun _ => rfl
  · intro p
    refine .ite (fun _ => ?_) fun _ => .zoom_atomic _ ((insertEntry_edits _ _).contract _)
    exact .unknown ((MutableUnknownFieldSet.addLengthDelimited_edits _ _).contract _)

theorem temporary_codes (hops : ops.Runs n) (e : Error) (h : value.temporary ops = .error e) :
    e.code ≠ .recursionLimit ∧ (e.code = .diverged → n + 1 ≤ 1) := by
  cases value with
  | scalar t | string | bytes => cases h
  | message id boxed => exact hops.create id e h

theorem readMap_atomic (hops : ops.Runs n) (preserve : Bool) (w : WireType) (f : ℕ) :
    Atomic (n + 1) (readMap ops preserve w f :
      ParseM (Slot Sub (.map key value maxBuckets)) Unit) := by
  refine Quiet.bind (.onReader (Forward.expectWireType w _ f).moves) fun _ => ?_
  refine Quiet.bind (.onReader (consume_moves _ _ _)) fun _ => ?_
  refine Quiet.bind (.ofExcept (temporary_codes hops)) fun fresh => ?_
  exact .ite (fun _ => readStagedEntry_atomic hops f _) fun _ => readNormalEntry_atomic hops f _

end

theorem handleUnknownField_atomic (preserve : Bool) (unknown : Lens O Bytes) (w : WireType) {f : ℕ}
    (hf : f ≤ Foundation.Wire.maxNumber) : Atomic n (handleUnknownField preserve unknown w f) := by
  refine .ite (fun _ => ?_) fun _ => (skipField_quiet n w f).atomic
  exact .unknown (readUnknownField_contract n w hf)

theorem FieldKind.parseCase_atomic {ops : MessageOps Sub} (hops : ops.Runs n) (preserve : Bool)
    (w : WireType) (f : ℕ) (kind : FieldKind) :
    Atomic (n + 1) (kind.parseCase ops preserve w f) := by
  cases kind with
  | implicit kind h =>
    refine (readSingleValue_contract hops preserve _ w f kind none).undiverted ?_ ?_
    · exact .pure _ fun _ => trivial
    · intro value
      refine Contract.modifying _ ?_ ?_
      · exact fun _ => ⟨rfl, rfl⟩
      · exact fun _ => trivial
  | explicit kind required oneof =>
    refine Quiet.bind .get fun s => ?_
    refine (readSingleValue_contract hops preserve _ w f kind _).undiverted ?_ ?_
    · exact .pure _ fun _ => trivial
    · intro value
      refine Contract.modifying _ ?_ ?_
      · exact fun _ => ⟨rfl, rfl⟩
      · exact fun _ => trivial
  | map key value maxBuckets => exact readMap_atomic hops preserve w f
  | «repeated» kind packed storage =>
    cases kind with
    | scalar t =>
      exact .ite (fun _ => readPackedField_atomic preserve f)
        fun _ => readRepeatedField_atomic hops preserve w f
    | string | bytes | message id boxed => exact readRepeatedField_atomic hops preserve w f

/-- A failed occurrence of a field leaves the message as it was. -/
theorem MessageData.mergeFieldFrom_atomic {M : MessageModel} {ops : MessageOps Sub}
    (hops : ops.Runs n) (preserve : Bool) {f : ℕ} (hf : f ≤ Foundation.Wire.maxNumber)
    (w : WireType) :
    Atomic (n + 1) (mergeFieldFrom ops preserve f w : ParseM (MessageData M Sub) Unit) := by
  unfold mergeFieldFrom
  split
  · exact handleUnknownField_atomic preserve _ w hf
  · refine .zoom_atomic _ (.ite (fun _ => ?_) fun _ => ?_)
    · exact (M.kind _).parseCase_atomic hops preserve w f
    · exact handleUnknownField_atomic preserve _ w hf

end Protocyte
