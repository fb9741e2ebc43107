import Protocyte.Codec.Groups

/-! The layers of a message, from its fields to the whole of it: what is accepted nests no deeper
than the levels left, and what is rejected for its nesting nests deeper. -/
namespace Protocyte
open Foundation.Computation Foundation.Wire

variable {S : Schema} {Sub : ℕ → Type} {O α β : Type}

theorem ScalarType.wireType_of_isClosed {t : ScalarType} (h : t.isClosed = true) :
    t.wireType = .varint := by
  cases t with
  | closedEnum values => rfl
  | double | float | int64 | uint64 | int32 | fixed64 | fixed32 | bool | uint32 | sfixed32
  | sfixed64 | sint32 | sint64 | openEnum => cases h

theorem readAcceptedScalar_flat (preserve : Bool) (unknown : Lens O Bytes) (t : ScalarType)
    {read : ReaderM t.Value} (f : ℕ) (hmoves : Moves read)
    (hread : Words read fun _ bs => (Tag.mk f t.wireType).Whole bs) :
    Flat (Tag.mk f t.wireType).Whole (readAcceptedScalar preserve unknown t read f) := by
  refine .ite (fun hclosed => ?_) fun _ => ?_
  · have hvarint : Flat (Tag.mk f t.wireType).Whole (onReader readVarint : ParseM O ℕ) := by
      refine (Consumes.ofReader Forward.readVarint.moves .readVarint).mono ?_
      intro bs ⟨v, hv⟩
      rw [ScalarType.wireType_of_isClosed hclosed]
      exact ⟨0, .varint f v, .varint hv⟩
    refine hvarint.before fun raw => .ite (fun _ => .ite (fun _ => ?_) fun _ => .pure _)
      fun _ => .pure _
    exact .after (.zoom _ (.onBound (MutableUnknownFieldSet.addVarint_edits _ _))) fun _ => .pure _
  · have hvalue : Flat (Tag.mk f t.wireType).Whole (onReader read : ParseM O t.Value) :=
      (Consumes.ofReader hmoves hread).mono fun bs ⟨_, h⟩ => h
    exact hvalue.before fun _ => .pure _

theorem Finishes.after {W : List UInt8 → Prop} {x : ParseM O β} {f : β → ParseM O α}
    (hx : Flat W x) (hf : ∀ b, Finishes (fun _ _ => False) (f b)) :
    Finishes (fun _ _ => False) (x >>= f) := by
  intro s
  refine Exits.bind (Exits.mono (hx s) (fun _ _ h => h) fun _ _ h => h) ?_
  intro b t ⟨bs, ht, _, _⟩
  refine Exits.mono (hf b t) ?_ fun _ _ h => h
  intro _ u ⟨⟨cs, hu⟩, heof, hn⟩
  exact ⟨⟨bs ++ cs, ht.trans hu⟩, heof, hn⟩

section
variable {storage : Storage}

theorem readPackedLoop_finishes (preserve : Bool) (t : ScalarType) (f n : ℕ) :
    Finishes (fun _ _ => False) (readPackedLoop preserve t f n :
      ParseM (Packed t storage) Unit) := by
  induction n with
  | zero =>
    intro s h
    cases h
  | succ n ih =>
    intro s
    unfold readPackedLoop
    split
    · next heof => exact ⟨⟨[], .refl s⟩, heof, id⟩
    have haccepted := readAcceptedScalar_flat preserve
      (Packed.unknownLens : Lens (Packed t storage) Bytes) t f (Forward.readScalar t).moves
      (.readScalar t f)
    refine Exits.ite (fun _ => ?_) fun _ => ?_
    · refine Finishes.after (.consume _ _ _) (fun _ => .after haccepted fun value => ?_) s
      cases value with
      | none => exact .after (.pure ()) fun _ => ih
      | some value =>
        exact .after (.zoom _ (.onBound (Items.pushBack_edits _ value))) fun _ => ih
    · refine Finishes.after haccepted (fun value => ?_) s
      cases value with
      | none => exact .after (.pure ()) fun _ => ih
      | some value =>
        exact .after (.zoom _ (.onBound (Items.pushBack_edits _ value))) fun _ => ih

theorem readPackedValues_finishes (preserve : Bool) (t : ScalarType) (f : ℕ) :
    Finishes (fun _ _ => False) (readPackedValues preserve t f : ParseM (Packed t storage) Unit) :=
  fun s => readPackedLoop_finishes preserve t f _ s

theorem checkedAdd_still (m k : ℕ) : Still (ofExcept (checkedAdd m k) : ParseM O ℕ) :=
  .ofExcept fun _ h => (checkedAdd_codes h).1

theorem readFixedWidthPackedValues_flat (t : ScalarType) (width byteCount f : ℕ) :
    Flat (·.length = byteCount) (readFixedWidthPackedValues t width byteCount f :
      ParseM (Items t.Value storage) Unit) := by
  refine .ite (fun hzero => ?_) fun _ => .ite (fun _ => .failField f nofun) fun _ => ?_
  · refine (Consumes.pure ()).mono fun bs hbs => ?_
    rw [hbs, hzero]
    rfl
  refine .after (.withField f (.canRead _)) fun _ => ?_
  refine .after (.withField f (.consume _ _ _)) fun _ => .after .get fun s => ?_
  refine .after (.withField f (checkedAdd_still _ _)) fun total => ?_
  refine .after (.withField f (.onBound (Items.resizeForOverwrite_edits _ _))) fun _ => ?_
  have hread : Flat (·.length = byteCount) (withField f (onReader (Reader.read byteCount)) :
      ParseM (Items t.Value storage) (List UInt8)) :=
    .withField f ((Consumes.ofReader (Forward.read _).moves (.read _)).mono fun bs ⟨_, h⟩ => h)
  intro u
  have hu := hread u
  dsimp only
  cases h : withField f (onReader (Reader.read byteCount)) u with
  | ok bytes v =>
    obtain ⟨bs, hv, hbs, hn⟩ := hu.ok h
    exact ⟨bs, ⟨hv.moved, hv.rest, hv.balanced⟩, hbs, hn⟩
  | error e v =>
    have he := hu.error h
    exact he

theorem prepareCommit_still (count f : ℕ) :
    Still (prepareCommit count f : ParseM (Items α storage) Unit) := by
  refine .after .get fun s => .after (checkedAdd_still _ _) fun total => ?_
  cases storage with
  | vector maxSize => exact .onBound (Items.reserve_edits _)
  | array max fixed => exact .ite (fun _ => .failField f nofun) fun _ => .pure _

theorem commitValues_still (reserved : Bool) (values : List α) (f : ℕ) :
    Still (commitValues reserved values f : ParseM (Items α storage) Unit) := by
  cases storage with
  | vector maxSize => exact .onBound (Items.append_edits _ _)
  | array max fixed =>
    refine .after .get fun s => .after (checkedAdd_still _ _) fun total => ?_
    exact .ite (fun _ => .failField f nofun) fun _ => .onBound (Items.append_edits _ _)

variable {packed : Bool} {t : ScalarType}

theorem commitPackedEnum_still (preserve : Bool) (run : Packed t storage) (f : ℕ) :
    Still (commitPackedEnum preserve run f : ParseM (PackedSlot Sub t packed storage) Unit) := by
  have hcommit : Still (zoom Slot.valueLens (commitValues true run.values.val f) :
      ParseM (PackedSlot Sub t packed storage) Unit) := .zoom _ (commitValues_still _ _ f)
  refine .after (.zoom _ (prepareCommit_still _ f)) fun _ => .ite (fun _ => ?_) fun _ => hcommit
  refine .after .get fun s => .after (.onContext (mergedStorage_allocates _ _)) fun merged => ?_
  exact .after hcommit fun _ => .modify _ fun _ => ⟨rfl, rfl⟩

theorem reservePackedRun_still (t : ScalarType) (len : ℕ) :
    Still (reservePackedRun t len : ParseM (Packed t storage) Unit) := by
  cases storage with
  | array max fixed => exact .pure _
  | vector maxSize =>
    unfold reservePackedRun
    cases t.fixedWidth with
    | none => exact .pure _
    | some width => exact .zoom _ (.onBound (Items.reserve_edits _))

theorem readStagedPackedField_flat (preserve : Bool) (len f : ℕ) :
    Flat (·.length = len) (readStagedPackedField preserve len f :
      ParseM (PackedSlot Sub t packed storage) Unit) := by
  have hcharge : Still (chargePackedRun t len f :
      ParseM (PackedSlot Sub t packed storage) Unit) := by
    unfold chargePackedRun
    split
    · exact .ite (fun _ => .failField f nofun) fun _ => .consume _ _ _
    · exact .pure _
  have hrun : Flat (·.length = len) (do
      reservePackedRun t len
      through (Reader.limited · len) (readPackedValues preserve t f) :
        ParseM (Packed t storage) Unit) :=
    .after (reservePackedRun_still t len) fun _ =>
      (readPackedValues_finishes preserve t f).through_limited len
  refine .after (.canRead len) fun _ => .after hcharge fun _ => ?_
  refine (Consumes.inTemporary _ hrun).before fun p => ?_
  exact .ite (fun _ => commitPackedEnum_still preserve p.2 f)
    fun _ => .zoom _ (commitValues_still _ _ f)

theorem readPackedField_flat (preserve : Bool) (f : ℕ) :
    Flat (Tag.mk f .len).Whole (readPackedField preserve f :
      ParseM (PackedSlot Sub t packed storage) Unit) := by
  refine .sized_flat f .readLengthDelimitedSize fun len => ?_
  split
  · exact .zoom _ (readFixedWidthPackedValues_flat t _ len f)
  · exact readStagedPackedField_flat preserve len f
  · exact readStagedPackedField_flat preserve len f

end

variable {layer : Layer} {f : ℕ} {w : WireType} {ops : MessageOps Sub}

theorem ScalarType.wireType_ne (t : ScalarType) : t.wireType ≠ .len ∧ t.wireType ≠ .sgroup := by
  cases t <;> exact ⟨nofun, nofun⟩

/-- A value of a wire type that opens no layer. -/
theorem opens_scalar (t : ScalarType) : S.opens layer ⟨f, t.wireType⟩ = none := by
  cases h : S.opens layer ⟨f, t.wireType⟩ with
  | none => rfl
  | some inner =>
    rcases Schema.wireType_of_opens h with hlen | hgroup
    · exact absurd hlen t.wireType_ne.1
    · exact absurd hgroup t.wireType_ne.2

theorem readScalarField_fielded (preserve : Bool) (unknown : Lens O Bytes) (t : ScalarType)
    (f : ℕ) : Fielded S layer ⟨f, t.wireType⟩
      (readAcceptedScalar preserve unknown t (readScalarField t t.wireType f) f) :=
  (readAcceptedScalar_flat preserve unknown t f (Forward.readScalarField t _ f).moves
    (.readScalarField t _ f)).fielded (opens_scalar t)

theorem readLengthDelimitedField_fielded (text : Bool) (hopens : S.opens layer ⟨f, .len⟩ = none) :
    Fielded S layer ⟨f, .len⟩ (do
      onReader (expectWireType .len .len f)
      withField f (readLengthDelimited text) : ParseM O Bytes) :=
  .after (.expectWireType _ _ f) fun _ =>
    ((readLengthDelimited_flat text f).withField f).fielded hopens

theorem readRepeatedValue_fielded (hops : ops.Layered S) (preserve : Bool) (unknown : Lens O Bytes)
    (kind : ValueKind) (hopens : w = .len → S.opens layer ⟨f, w⟩ = kind.layer)
    (hw : w = kind.wireType) :
    Fielded S layer ⟨f, w⟩ (readRepeatedValue ops preserve unknown w f kind) := by
  subst hw
  cases kind with
  | scalar t => exact readScalarField_fielded preserve unknown t f
  | string => exact (readLengthDelimitedField_fielded true (hopens rfl)).before fun _ => .pure _
  | bytes => exact (readLengthDelimitedField_fielded false (hopens rfl)).before fun _ => .pure _
  | message id boxed =>
    refine .after (.expectWireType _ _ f) fun _ => .after (.ofExcept (hops.create id)) fun value => ?_
    exact (readMessagePartial_fielded hops (hopens rfl) value).before fun _ => .pure _

theorem readSingleValue_fielded (hops : ops.Layered S) (preserve : Bool) (unknown : Lens O Bytes)
    (kind : SingularKind) (existing : Option (kind.Carrier Sub)) (hw : w = kind.wireType)
    (hopens : w = .len → S.opens layer ⟨f, w⟩ = kind.layer) :
    Fielded S layer ⟨f, w⟩ (readSingleValue ops preserve unknown w f kind existing) := by
  subst hw
  cases kind with
  | byteArray max fixed =>
    exact ((readBoundedBytes_flat max fixed f).fielded (hopens rfl)).before fun _ => .pure _
  | value kind =>
    cases kind with
    | scalar t => exact readScalarField_fielded preserve unknown t f
    | string =>
      exact (readLengthDelimitedField_fielded true (hopens rfl)).before fun _ => .pure _
    | bytes =>
      exact (readLengthDelimitedField_fielded false (hopens rfl)).before fun _ => .pure _
    | message id boxed =>
      refine .after (.expectWireType _ _ f) fun _ => .after (.ofExcept (hops.create id)) fun fresh => ?_
      have hread : ∀ value : Sub id, Fielded S layer ⟨f, .len⟩ (do
          let value ← readMessagePartial ops id f value
          onContext (takeBlock (if boxed then 1 else 0))
          return some value : ParseM O (Option (Sub id))) := fun value =>
        (readMessagePartial_fielded hops (hopens rfl) value).before fun _ =>
          .after (.onContext (takeBlock_allocates _)) fun _ => .pure _
      cases existing with
      | none => exact .after (.pure fresh) hread
      | some source => exact .after (.onContext (ops.copier.allocates id source)) hread

theorem readRepeatedField_fielded {kind : ValueKind} {packed : Bool} {storage : Storage}
    (hops : ops.Layered S) (preserve : Bool)
    (hopens : w = .len → S.opens layer ⟨f, w⟩ = kind.layer) (hw : w = kind.wireType) :
    Fielded S layer ⟨f, w⟩ (readRepeatedField ops preserve w f :
      ParseM (Slot Sub (.repeated kind packed storage)) Unit) := by
  refine .after (.consume _ _ _) fun _ => ?_
  refine (readRepeatedValue_fielded hops preserve _ kind hopens hw).before fun value => ?_
  cases value with
  | none => exact .pure _
  | some value => exact .zoom _ (.onBound (Items.pushBack_edits _ _))

/-- The loop over the fields of a layer. -/
theorem fieldLoop_layered {step : Tag → ParseM O Unit}
    (hstep : ∀ tag, tag.fieldNumber ≤ maxNumber → Fielded S layer tag (step tag)) (n : ℕ) :
    Layered S layer (fieldLoop step n) := by
  induction n with
  | zero =>
    intro s h
    cases h
  | succ n ih =>
    intro s
    unfold fieldLoop
    split
    · next heof =>
      rw [Reader.rest_of_eof heof]
      exact ⟨⟨[], .refl s⟩, heof, Schema.not_nests_nil⟩
    refine Exits.bind ((readTag_tagged s).mono (fun _ _ h => h) fun _ _ h he => absurd he h) ?_
    intro tag t hread
    obtain ⟨ks, ht, hkey⟩ := hread
    rw [ht.rest, ← ht.levels]
    refine Exits.bind (Exits.mono (hstep tag hkey.2.2.1 t) (fun _ _ h => h) ?_) ?_
    · exact fun _ _ h he => .here hkey (h he)
    intro _ u hfield
    obtain ⟨bs, hu, hbs, hn⟩ := hfield
    have hloop := ih u
    rw [hu.rest] at hn ⊢
    rw [hu.levels] at hloop
    refine Exits.mono hloop ?_ fun _ _ h he => .later hkey hbs (h he)
    intro _ v hlater
    obtain ⟨⟨cs, hv⟩, heof, hrest⟩ := hlater
    exact ⟨⟨ks ++ (bs ++ cs), ht.trans (hu.trans hv)⟩, heof, Schema.not_nests_cons hkey hbs hn hrest⟩

theorem forEachField_layered {step : Tag → ParseM O Unit}
    (hstep : ∀ tag, tag.fieldNumber ≤ maxNumber → Fielded S layer tag (step tag)) :
    Layered S layer (forEachField step) :=
  fun s => fieldLoop_layered hstep _ s

section
variable {key : KeyKind} {value : ValueKind} {maxBuckets : Usize}

theorem readMapKey_fielded (ops : MessageOps Sub) (current : key.Carrier Sub) :
    Fielded S (.entry value) ⟨1, key.value.wireType⟩
      (readMapMember ops 1 key.value current : ParseM O (key.Carrier Sub)) := by
  cases key with
  | scalar t h =>
    exact ((Consumes.ofReader (Forward.readScalar t).moves (.readScalar t 1)).mono
      fun _ ⟨_, hbs⟩ => hbs).fielded (opens_scalar t)
  | string => exact (readLengthDelimited_flat true 1).fielded rfl

theorem readMapValue_fielded (hops : ops.Layered S) (current : value.Carrier Sub) :
    Fielded S (.entry value) ⟨2, value.wireType⟩
      (readMapMember ops 2 value current : ParseM O (value.Carrier Sub)) := by
  cases value with
  | scalar t =>
    exact ((Consumes.ofReader (Forward.readScalar t).moves (.readScalar t 2)).mono
      fun _ ⟨_, hbs⟩ => hbs).fielded (opens_scalar t)
  | string => exact (readLengthDelimited_flat true 2).fielded rfl
  | bytes => exact (readLengthDelimited_flat false 2).fielded rfl
  | message id boxed => exact readMessagePartial_fielded hops rfl current

theorem readEntryField_fielded (hops : ops.Layered S) (tag : Tag) :
    Fielded S (.entry value) tag (readEntryField ops tag : ParseM (Entry Sub key value) Unit) := by
  obtain ⟨f, w⟩ := tag
  refine .ite (fun hkey => ?_) fun _ => .ite (fun hvalue => ?_) fun hother => ?_
  · obtain ⟨rfl, rfl⟩ := hkey
    refine .after .get fun s => (readMapKey_fielded ops _).before fun read => ?_
    exact .modify _ fun _ => ⟨rfl, rfl⟩
  · obtain ⟨rfl, rfl⟩ := hvalue
    refine .after .get fun s => (readMapValue_fielded hops _).before fun read => ?_
    refine .ite (fun _ => ?_) fun _ => ?_
    · exact .modify _ fun _ => ⟨rfl, rfl⟩
    · exact .modify _ fun _ => ⟨rfl, rfl⟩
  · refine skipField_fielded fun inner h => ?_
    rcases Schema.wireType_of_opens h with hlen | hgroup
    · obtain rfl : w = .len := hlen
      refine absurd ⟨?_, ?_⟩ hother
      · by_contra hf
        have hf' : f ≠ 2 := hf
        simp only [Schema.opens, if_neg hf'] at h
        cases h
      · by_cases hf : f = 2
        · simp only [Schema.opens, if_pos hf] at h
          cases value with
          | message id boxed => rfl
          | scalar t | string | bytes => cases h
        · simp only [Schema.opens, if_neg hf] at h
          cases h
    · exact hgroup

theorem parseEntry_layered (hops : ops.Layered S) :
    Layered S (.entry value) (parseEntry ops : ParseM (Entry Sub key value) Unit) :=
  forEachField_layered fun tag _ => readEntryField_fielded hops tag

theorem readNormalEntry_fielded (hops : ops.Layered S) (fresh : Entry Sub key value)
    (hopens : S.opens layer ⟨f, .len⟩ = some (.entry value)) :
    Fielded S layer ⟨f, .len⟩ (readNormalEntry ops f fresh :
      ParseM (Slot Sub (.map key value maxBuckets)) Unit) := by
  have hread := nestedMessage_fielded (O := Slot Sub (.map key value maxBuckets)) hopens
    ((parseEntry_layered hops).inTemporary fresh)
  have h := hread.before fun p => (Consumes.ite (fun _ => .pure ()) fun _ =>
    .zoom Slot.valueLens (.onBound (insertEntry_edits ops.copier p.2)) :
      Still (if p.2.unknown then return ()
        else zoom Slot.valueLens (onBound (insertEntry ops.copier p.2)) :
          ParseM (Slot Sub (.map key value maxBuckets)) Unit))
  rwa [bind_assoc] at h

/-- The bytes of the entry are kept, and read through a reader of their own. -/
theorem staged_consumes {inner : Layer} {x : ParseM O α} (hx : Layered S inner x) (n offset : ℕ) :
    Consumes (·.length = n) (fun d rest => S.Nests (d + 1) inner (rest.take n)) (do
      let stagedEntry ← onReader (Reader.readBuffer n)
      let entry ← through (Reader.staged { data := stagedEntry.val, baseOffset := offset } ·) x
      return (stagedEntry.val, entry)) := by
  intro s
  refine Exits.bind (Q := fun staged t => Past s t staged.val ∧
    staged.val = s.reader.rest.take n) (Exits.intro ?_ ?_) ?_
  · intro staged t h
    obtain ⟨r, hr, rfl⟩ := onReader_eq_ok.mp h
    unfold Reader.readBuffer at hr
    split at hr
    · next bytes r' hread =>
      cases hr
      obtain ⟨hle, rfl, rfl⟩ := Reader.read_eq_ok.mp hread
      have hlength : (s.reader.rest.take n).length = n := by
        rw [List.length_take, Nat.min_eq_left hle]
      exact ⟨.advance (List.take_append_drop n _).symm (by rw [hlength]), rfl⟩
    · cases hr
  · intro e t h he
    obtain ⟨r, hr, -⟩ := onReader_eq_error.mp h
    exact absurd he ((readBuffer_moves n s.reader).error hr).1
  intro staged t ⟨ht, hbytes⟩
  have hxt := hx { t with reader := .staged { data := staged.val, baseOffset := offset } t.reader }
  have hlevels : Parse.levels { t with
      reader := .staged { data := staged.val, baseOffset := offset } t.reader } = s.levels :=
    ht.levels
  have hrest : Reader.rest (.staged { data := staged.val, baseOffset := offset } t.reader) =
      s.reader.rest.take n := hbytes
  rw [hlevels, hrest] at hxt
  refine Exits.bind (Q := fun _ u => Past t u [] ∧
    ¬S.Nests (s.levels + 1) inner (s.reader.rest.take n)) ?_ ?_
  · unfold through
    dsimp only
    cases h : x { t with
        reader := .staged { data := staged.val, baseOffset := offset } t.reader } with
    | error e u =>
      have he := hxt.error h
      exact he
    | ok a u =>
      obtain ⟨⟨bs, hu⟩, -, hn⟩ := hxt.ok h
      have hmoved : t.reader.Moved u.reader.wrapped 0 := hu.moved.wrapped_staged
      have hback : Past t { u with reader := u.reader.wrapped } _ := .of_moved hmoved hu.balanced
      exact ⟨hback, hn⟩
  · intro a u ⟨hu, hn⟩
    have hpast := ht.trans hu
    rw [List.append_nil] at hpast
    exact ⟨staged.val, hpast, staged.2, hn⟩

theorem readStagedEntry_fielded (hops : ops.Layered S) (fresh : Entry Sub key value)
    (hopens : S.opens layer ⟨f, .len⟩ = some (.entry value)) :
    Fielded S layer ⟨f, .len⟩ (readStagedEntry ops f fresh :
      ParseM (Slot Sub (.map key value maxBuckets)) Unit) := by
  refine Consumes.fielded_nested hopens (.sized f .readSize fun size => .after .get fun s => ?_)
  refine .ite (fun _ => .failField f (by decide)) fun _ => .after (.canRead _) fun _ => ?_
  have hread : Consumes (·.length = size.val) (fun d rest => Below S (.entry value) d (rest.take size))
      (do
        pushRecursion f
        releasing do
          let entryOffset := (← get).reader.position
          onContext (takeBlock size)
          let stagedEntry ← onReader (Reader.readBuffer size)
          let staged ← through
            (Reader.staged { data := stagedEntry.val, baseOffset := entryOffset } ·)
            (inTemporary fresh (parseEntry ops))
          return (stagedEntry.val, staged.2) :
        ParseM (Slot Sub (.map key value maxBuckets)) (List UInt8 × Entry Sub key value)) := by
    refine (Opening.push f).releasing
      (N := fun d rest => S.Nests (d + 1) (.entry value) (rest.take size)) (.after .get fun t => ?_)
    refine .after (.onContext (takeBlock_allocates _)) fun _ => ?_
    have hstaged := (staged_consumes (O := Slot Sub (.map key value maxBuckets))
      ((parseEntry_layered hops).inTemporary fresh) size t.reader.position).before
        fun p => Consumes.pure (p.1, p.2.2)
    simpa only [bind_assoc, pure_bind] using hstaged
  have h := hread.before fun p => (Consumes.ite (fun _ => ?_) fun _ =>
    .zoom Slot.valueLens (.onBound (insertEntry_edits ops.copier p.2)) :
      Still (if p.2.unknown then
          zoom (Slot.unknownLens.comp storageLens)
            (onBound (MutableUnknownFieldSet.addLengthDelimited f (.external p.1)))
        else zoom Slot.valueLens (onBound (insertEntry ops.copier p.2)) :
          ParseM (Slot Sub (.map key value maxBuckets)) Unit))
  · rwa [bind_assoc] at h
  · exact .zoom _ (.onBound (MutableUnknownFieldSet.addLengthDelimited_edits _ _))

theorem temporary_code (hops : ops.Layered S) (e : Error) (h : value.temporary ops = .error e) :
    e.code ≠ .recursionLimit := by
  cases value with
  | scalar t | string | bytes => cases h
  | message id boxed => exact hops.create id e h

theorem readMap_fielded (hops : ops.Layered S) (preserve : Bool)
    (hopens : S.opens layer ⟨f, .len⟩ = some (.entry value)) :
    Fielded S layer ⟨f, .len⟩ (readMap ops preserve .len f :
      ParseM (Slot Sub (.map key value maxBuckets)) Unit) := by
  refine .after (.expectWireType _ _ f) fun _ => .after (.consume _ _ _) fun _ => ?_
  refine .after (.ofExcept (temporary_code hops)) fun fresh => ?_
  exact .ite (fun _ => readStagedEntry_fielded hops _ hopens)
    fun _ => readNormalEntry_fielded hops _ hopens

end

theorem handleUnknownField_fielded {tag : Tag} (preserve : Bool) (unknown : Lens O Bytes)
    (hf : tag.fieldNumber ≤ maxNumber)
    (hopens : ∀ inner, S.opens layer tag = some inner → tag.wireType = .sgroup) :
    Fielded S layer tag (handleUnknownField preserve unknown tag.wireType tag.fieldNumber) :=
  .ite (fun _ => .zoom _ (readUnknownField_fielded hf hopens)) fun _ => skipField_fielded hopens

theorem FieldKind.parseCase_fielded (hops : ops.Layered S) (preserve : Bool) (kind : FieldKind)
    (hallows : kind.allows w = true) (hopens : w = .len → S.opens layer ⟨f, w⟩ = kind.layer) :
    Fielded S layer ⟨f, w⟩ (kind.parseCase ops preserve w f : ParseM (Slot Sub kind) Unit) := by
  cases kind with
  | implicit kind h =>
    obtain rfl : w = kind.wireType := of_decide_eq_true hallows
    refine (readSingleValue_fielded hops preserve _ kind none rfl hopens).before fun value => ?_
    cases value with
    | none => exact .pure _
    | some value => exact .modify _ fun _ => ⟨rfl, rfl⟩
  | explicit kind required oneof =>
    obtain rfl : w = kind.wireType := of_decide_eq_true hallows
    refine .after .get fun s => ?_
    refine (readSingleValue_fielded hops preserve _ kind _ rfl hopens).before fun value => ?_
    cases value with
    | none => exact .pure _
    | some value => exact .modify _ fun _ => ⟨rfl, rfl⟩
  | map key value maxBuckets =>
    obtain rfl : w = .len := of_decide_eq_true hallows
    exact readMap_fielded hops preserve (hopens rfl)
  | «repeated» kind packed storage =>
    cases kind with
    | scalar t =>
      refine .ite (fun hlen => ?_) fun hlen => ?_
      · subst hlen
        exact (readPackedField_flat preserve f).fielded (hopens rfl)
      · refine readRepeatedField_fielded hops preserve (fun h => absurd h hlen) ?_
        rcases Bool.or_eq_true _ _ |>.mp hallows with h | h
        · exact of_decide_eq_true h
        · exact absurd (of_decide_eq_true h) hlen
    | string =>
      exact readRepeatedField_fielded hops preserve hopens (of_decide_eq_true hallows)
    | bytes =>
      exact readRepeatedField_fielded hops preserve hopens (of_decide_eq_true hallows)
    | message id boxed =>
      exact readRepeatedField_fielded hops preserve hopens (of_decide_eq_true hallows)

/-- Only a field that may be a message or an entry has a layer. -/
theorem FieldKind.allows_len {kind : FieldKind} (h : kind.layer ≠ none) :
    kind.allows .len = true := by
  cases kind with
  | map key value maxBuckets => rfl
  | implicit kind _ | explicit kind _ _ =>
    cases kind with
    | byteArray max fixed => exact absurd rfl h
    | value kind =>
      cases kind with
      | message id boxed => rfl
      | scalar t | string | bytes => exact absurd rfl h
  | «repeated» kind packed storage =>
    cases kind with
    | message id boxed => rfl
    | scalar t | string | bytes => exact absurd rfl h

/-- A field of a message, after its tag. -/
theorem MessageData.mergeFieldFrom_fielded (hops : ops.Layered S) (preserve : Bool) {id : ℕ}
    (tag : Tag) (hf : tag.fieldNumber ≤ maxNumber) :
    Fielded S (.message id) tag (mergeFieldFrom ops preserve tag.fieldNumber tag.wireType :
      ParseM (MessageData (S id) Sub) Unit) := by
  obtain ⟨f, w⟩ := tag
  have hlen : S.opens (.message id) ⟨f, .len⟩ =
    ((S id).find f).bind fun i => ((S id).kind i).layer := rfl
  unfold mergeFieldFrom
  cases hfind : (S id).find f with
  | none =>
    refine handleUnknownField_fielded preserve _ hf fun inner h => ?_
    rcases Schema.wireType_of_opens h with hw | hw
    · obtain rfl : w = .len := hw
      rw [hlen, hfind] at h
      cases h
    · exact hw
  | some i =>
    refine .zoom _ (.ite (fun hallows => ?_) fun hrefused => ?_)
    · refine ((S id).kind i).parseCase_fielded hops preserve hallows fun hw => ?_
      subst hw
      rw [hlen, hfind]
      rfl
    · refine handleUnknownField_fielded preserve _ hf fun inner h => ?_
      rcases Schema.wireType_of_opens h with hw | hw
      · obtain rfl : w = .len := hw
        rw [hlen, hfind] at h
        refine absurd (FieldKind.allows_len ?_) hrefused
        intro hnone
        rw [Option.bind_some, hnone] at h
        cases h
      · exact hw

end Protocyte
