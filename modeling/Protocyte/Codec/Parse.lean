import Protocyte.Codec.Copy
import Protocyte.Runtime.UnknownFields.Mutable
import Protocyte.Runtime.UnknownFields.Read

/-! Parsing. The emitted code handles one field occurrence after the other; every kind of field
reads into temporaries and commits in the end. `preserve` is `preserve_unknown_fields_v`. -/
namespace Protocyte
open Foundation.Computation Foundation.LittleEndian

variable {Sub : ℕ → Type} {O α : Type}

def readSize : ReaderM Usize := fun r =>
  match h : readLengthDelimitedSize r with
  | .ok size r' => .ok ⟨size, by
      obtain ⟨bs, xs, -, hv, -⟩ := readLengthDelimitedSize_eq_ok.mp h
      have hm : usizeMax = 2 ^ 64 - 1 := rfl
      have hlt := hv.2.2
      omega⟩ r'
  | .error e r' => .error e r'

/-- `error.offset = reader.position()` on failure. -/
def located (x : ParseM O α) : ParseM O α := fun s =>
  match x s with
  | .ok a t => .ok a t
  | .error e t => .error { e with offset := t.reader.position } t

/-- `read_string_sized`, when `text`, and `read_bytes_sized`. -/
def readSized (text : Bool) (size : Usize) : ParseM O Bytes := do
  if size > (← get).ctx.limits.maxStringBytes then
    failField .sizeLimit 0
  else
    checkReader (Reader.canRead size)
    located (onContext (takeBlock size))
    let buffer ← onReader (Reader.readBuffer size)
    if text ∧ !validateUtf8 buffer.val then
      failField .invalidUtf8 0
    else
      return ⟨buffer.val, by rw [buffer.2]; exact size.2⟩

def readLengthDelimited (text : Bool) : ParseM O Bytes := do
  readSized text (← onReader readSize)

def readString : ParseM O Bytes := readLengthDelimited true

def readBytes : ParseM O Bytes := readLengthDelimited false

def readStringField (wireType : WireType) (fieldNumber : ℕ) : ParseM O Bytes := do
  onReader (expectWireType wireType .len fieldNumber)
  withField fieldNumber readString

def readBytesField (wireType : WireType) (fieldNumber : ℕ) : ParseM O Bytes := do
  onReader (expectWireType wireType .len fieldNumber)
  withField fieldNumber readBytes

/-- `_emit_read_bounded_bytes` -/
def readBoundedBytes (max : Usize) (fixed : Bool) (fieldNumber : ℕ) :
    ParseM O (ArrayBytes max fixed) := do
  let size ← onReader readSize
  if h : fixed = true ∧ size ≠ max then
    failField .invalidArgument fieldNumber
  else if h' : fixed = false ∧ size > max then
    failField .countLimit fieldNumber
  else
    checkReader (Reader.canRead size)
    let buffer ← onReader (Reader.readBuffer size)
    return ⟨buffer.val, by
      rw [buffer.2]
      cases fixed with
      | true =>
        have he : size = max := by simpa using h
        rw [he]
        exact ⟨Nat.le_refl _, fun _ => rfl⟩
      | false =>
        have hle : size ≤ max := by simpa using h'
        exact ⟨hle, nofun⟩⟩

def openNestedMessageSized (size fieldNumber : ℕ) : ParseM O Unit := do
  if size > (← get).ctx.limits.maxMessageBytes then
    failField .sizeLimit fieldNumber
  else
    pushRecursion fieldNumber

def openNestedMessage (fieldNumber : ℕ) : ParseM O ℕ := do
  let size ← withField fieldNumber (onReader readLengthDelimitedSize)
  withField fieldNumber (openNestedMessageSized size fieldNumber)
  return size

/-- What `NestedMessageReader` does around the parse of a payload: `finish` when it succeeds, and
`release` in any case. -/
def nestedMessage (size : ℕ) (x : ParseM O α) : ParseM O α :=
  releasing <| through (Reader.limited · size) do
    let a ← x
    onReader Reader.finish
    return a

/-- What the emitted code of a message needs of the messages it holds. -/
structure MessageOps (Sub : ℕ → Type) where
  create : (id : ℕ) → Except Error (Sub id)
  copier : Copier Sub
  mergeFieldsFrom : (id : ℕ) → ParseM (Sub id) Unit

def readMessagePartial (ops : MessageOps Sub) (id fieldNumber : ℕ) (out : Sub id) :
    ParseM O (Sub id) :=
  withField fieldNumber do
    let size ← openNestedMessage fieldNumber
    nestedMessage size do
      let (_, out) ← through Reader.ref (inTemporary out (ops.mergeFieldsFrom id))
      return out

/-- `_emit_unknown_field_handling` -/
def handleUnknownField (preserve : Bool) (unknown : Lens O Bytes) (wireType : WireType)
    (fieldNumber : ℕ) : ParseM O Unit :=
  if preserve then zoom (unknown.comp storageLens) (readUnknownField wireType fieldNumber)
  else skipField wireType fieldNumber

/-- `_emit_read_scalar`; there is no value when the number of a closed enumeration is stored as an
unknown field instead. -/
def readAcceptedScalar (preserve : Bool) (unknown : Lens O Bytes) (t : ScalarType)
    (read : ReaderM t.Value) (fieldNumber : ℕ) : ParseM O (Option t.Value) :=
  if t.isClosed then do
    let raw ← onReader readVarint
    let value := BitVec.ofNat t.width raw
    if t.closedInvalid value then
      if preserve then
        zoom (unknown.comp storageLens)
          (onBound (MutableUnknownFieldSet.addVarint fieldNumber (UInt64.ofNat raw)))
      return none
    else
      return some value
  else do
    return some (← onReader read)

/-- A field of a message, with the storage of its unknown fields. -/
structure Slot (Sub : ℕ → Type) (kind : FieldKind) where
  value : FieldState Sub kind
  unknown : Bytes

namespace Slot

variable {kind : FieldKind}

def unknownLens : Lens (Slot Sub kind) Bytes where
  get s := s.unknown
  set unknown s := { s with unknown }
  set_get _ := rfl

def valueLens : Lens (Slot Sub kind) (FieldState Sub kind) where
  get s := s.value
  set value s := { s with value }
  set_get _ := rfl

/-- The member is assigned. -/
def store (value : FieldState Sub kind) : ParseM (Slot Sub kind) Unit :=
  modify fun s => { s with obj := { s.obj with value } }

end Slot

/-- `_emit_read_single_value` up to the commit, and `_emit_read_staged_message` for messages. -/
def readSingleValue (ops : MessageOps Sub) (preserve : Bool) (unknown : Lens O Bytes)
    (wireType : WireType) (fieldNumber : ℕ) : (kind : SingularKind) →
    Option (kind.Carrier Sub) → ParseM O (Option (kind.Carrier Sub))
  | .value (.scalar t), _ =>
    readAcceptedScalar preserve unknown t (readScalarField t wireType fieldNumber) fieldNumber
  | .value .string, _ => do return some (← readStringField wireType fieldNumber)
  | .value .bytes, _ => do return some (← readBytesField wireType fieldNumber)
  | .value (.message id boxed), existing => do
    onReader (expectWireType wireType .len fieldNumber)
    let fresh ← ofExcept (ops.create id)
    let value ← match existing with
      | none => pure fresh
      | some source => onContext (ops.copier.copyFrom id source)
    let value ← readMessagePartial ops id fieldNumber value
    onContext (takeBlock (if boxed then 1 else 0))
    return some value
  | .byteArray max fixed, _ => do return some (← readBoundedBytes max fixed fieldNumber)

namespace Items

variable {storage : Storage}

theorem resized_le {fill : α} {count : ℕ} (s : Bound (Items α storage))
    (h : ¬ count > storage.capacity) : (s.obj.val.take count ++
      List.replicate (count - s.obj.val.length) fill).length ≤ storage.capacity := by
  have hitems := s.obj.2
  rw [List.length_append, List.length_take, List.length_replicate]
  omega

/-- The items past the old end are indeterminate until they are overwritten; `fill` stands for
them. -/
def resizeForOverwrite (fill : α) (count : ℕ) : BoundM (Items α storage) Unit := fun s =>
  if h : count > storage.capacity then .error { code := .countLimit } s
  else match grow storage false (count - s.obj.val.length) s.ctx with
    | .ok _ ctx => .ok () { ctx, obj := ⟨s.obj.val.take count ++
        List.replicate (count - s.obj.val.length) fill, resized_le s h⟩ }
    | .error e ctx => .error e { s with ctx }

def truncate (count : ℕ) (items : Items α storage) : Items α storage :=
  ⟨items.val.take count, Nat.le_trans (List.length_take_le' _ _) items.2⟩

/-- Stores over the items from `offset` on. -/
def overwrite (offset : ℕ) (values : List α) (items : Items α storage) : Items α storage :=
  ⟨(items.val.take offset ++ values).take items.val.length,
    Nat.le_trans (List.length_take_le _ _) items.2⟩

end Items

def fixedWidthValues (t : ScalarType) (width : ℕ) : ℕ → List UInt8 → List t.Value
  | 0, _ => []
  | n + 1, bytes =>
    BitVec.ofNat t.width (ofBytes (bytes.take width)) :: fixedWidthValues t width n (bytes.drop width)

/-- The values are read in place; a failed read cuts the vector back. -/
def readFixedWidthPackedValues {storage : Storage} (t : ScalarType) (width byteCount fieldNumber : ℕ) :
    ParseM (Items t.Value storage) Unit := do
  if byteCount = 0 then
    return ()
  else if byteCount % width ≠ 0 then
    failField .unexpectedEof fieldNumber
  else
    let count := byteCount / width
    withField fieldNumber (checkReader (Reader.canRead byteCount))
    withField fieldNumber (onReader (Reader.consumeRepeatedElements count fieldNumber))
    let oldSize := (← get).obj.val.length
    let total ← withField fieldNumber (ofExcept (checkedAdd oldSize count))
    withField fieldNumber (onBound (Items.resizeForOverwrite 0 total))
    fun s => match withField fieldNumber (onReader (Reader.read byteCount)) s with
      | .ok bytes s => .ok () { s with
          obj := s.obj.overwrite oldSize (fixedWidthValues t width count bytes) }
      | .error e s => .error e { s with obj := s.obj.truncate oldSize }

/-- The temporaries of a packed run. -/
structure Packed (t : ScalarType) (storage : Storage) where
  values : Items t.Value storage
  unknown : Bytes

namespace Packed

variable {t : ScalarType} {storage : Storage}

def unknownLens : Lens (Packed t storage) Bytes where
  get p := p.unknown
  set unknown p := { p with unknown }
  set_get _ := rfl

def valuesLens : Lens (Packed t storage) (Items t.Value storage) where
  get p := p.values
  set values p := { p with values }
  set_get _ := rfl

end Packed

/-- The loop over a packed run. Every iteration reads a value, so the bytes left bound their
number. A run of values of a fixed width is charged and reserved at once. -/
def readPackedLoop {storage : Storage} (preserve : Bool) (t : ScalarType) (fieldNumber : ℕ) :
    ℕ → ParseM (Packed t storage) Unit
  | 0 => diverged
  | n + 1 => fun s =>
    if s.reader.eof then .ok () s
    else (do
      if t.fixedWidth.isNone then
        onReader (Reader.consumeRepeatedElements 1 fieldNumber)
      match ← readAcceptedScalar preserve Packed.unknownLens t (readScalar t) fieldNumber with
      | none => pure ()
      | some value =>
        zoom Packed.valuesLens (onBound (Items.pushBack t.fixedWidth.isSome value))
      readPackedLoop preserve t fieldNumber n : ParseM (Packed t storage) Unit) s

def readPackedValues {storage : Storage} (preserve : Bool) (t : ScalarType) (fieldNumber : ℕ) :
    ParseM (Packed t storage) Unit := fun s =>
  readPackedLoop preserve t fieldNumber (s.reader.rest.length + 1) s

/-- `_emit_prepare_repeated_values_commit` -/
def prepareCommit {storage : Storage} (count fieldNumber : ℕ) : ParseM (Items α storage) Unit := do
  let preparedSize ← ofExcept (checkedAdd (← get).obj.val.length count)
  match storage with
  | .vector _ => onBound (Items.reserve preparedSize)
  | .array max _ => if preparedSize > max then failField .countLimit fieldNumber

/-- `_emit_commit_repeated_values` -/
def commitValues {storage : Storage} (reserved : Bool) (values : List α) (fieldNumber : ℕ) :
    ParseM (Items α storage) Unit := do
  match storage with
  | .vector _ => onBound (Items.append reserved values)
  | .array max _ =>
    let commitSize ← ofExcept (checkedAdd (← get).obj.val.length values.length)
    if commitSize > max then failField .countLimit fieldNumber
    else onBound (Items.append reserved values)

theorem merged_le (s : Bound ByteVec) : s.obj.items.length ≤ usizeMax := s.obj.size_le

/-- `prepare_unknown_field_merge` -/
def mergedStorage (current addition : Bytes) : EStateM Error Context Bytes := fun ctx =>
  match prepareUnknownFieldMerge current.val addition.val { ctx, obj := Vec.empty } with
  | .ok _ s => .ok ⟨s.obj.items, merged_le s⟩ s.ctx
  | .error e s => .error e s.ctx

/-- A run of values of a fixed width is charged before it is read. -/
def chargePackedRun (t : ScalarType) (len fieldNumber : ℕ) : ParseM O Unit :=
  match t.fixedWidth with
  | some width =>
    if len % width ≠ 0 then failField .unexpectedEof fieldNumber
    else onReader (Reader.consumeRepeatedElements (len / width) fieldNumber)
  | none => return ()

def reservePackedRun {storage : Storage} (t : ScalarType) (len : ℕ) :
    ParseM (Packed t storage) Unit :=
  match storage, t.fixedWidth with
  | .vector _, some width => zoom Packed.valuesLens (onBound (Items.reserve (len / width)))
  | .vector _, none | .array .., _ => return ()

section
variable {packed : Bool} {storage : Storage} {t : ScalarType}

abbrev PackedSlot (Sub : ℕ → Type) (t : ScalarType) (packed : Bool) (storage : Storage) : Type :=
  Slot Sub (.repeated (.scalar t) packed storage)

/-- The values of a closed enumeration go to two storages, which are both prepared before either
changes. -/
def commitPackedEnum (preserve : Bool) (run : Packed t storage) (fieldNumber : ℕ) :
    ParseM (PackedSlot Sub t packed storage) Unit := do
  zoom Slot.valueLens (prepareCommit (α := t.Value) run.values.val.length fieldNumber)
  if preserve ∧ run.unknown.val ≠ [] then
    let merged ← onContext (mergedStorage (← get).obj.unknown run.unknown)
    zoom Slot.valueLens (commitValues true run.values.val fieldNumber)
    modify fun s => { s with obj := { s.obj with unknown := merged } }
  else
    zoom Slot.valueLens (commitValues true run.values.val fieldNumber)

def readStagedPackedField (preserve : Bool) (len fieldNumber : ℕ) :
    ParseM (PackedSlot Sub t packed storage) Unit := do
  checkReader (Reader.canRead len)
  chargePackedRun t len fieldNumber
  let (_, run) ← inTemporary (⟨Items.empty, Bytes.empty⟩ : Packed t storage) do
    reservePackedRun t len
    through (Reader.limited · len) (readPackedValues preserve t fieldNumber)
  if t.isClosed then
    commitPackedEnum preserve run fieldNumber
  else
    zoom Slot.valueLens (commitValues false run.values.val fieldNumber)

def readPackedField (preserve : Bool) (fieldNumber : ℕ) :
    ParseM (PackedSlot Sub t packed storage) Unit := do
  let len ← onReader readLengthDelimitedSize
  match storage, t.bulkWidth with
  | .vector _, some width =>
    zoom Slot.valueLens (readFixedWidthPackedValues t width len fieldNumber)
  | .vector _, none | .array .., _ => readStagedPackedField preserve len fieldNumber

end

/-- `_emit_read_repeated_value` up to the value. -/
def readRepeatedValue (ops : MessageOps Sub) (preserve : Bool) (unknown : Lens O Bytes)
    (wireType : WireType) (fieldNumber : ℕ) : (kind : ValueKind) →
    ParseM O (Option (kind.Carrier Sub))
  | .scalar t =>
    readAcceptedScalar preserve unknown t (readScalarField t wireType fieldNumber) fieldNumber
  | .string => do return some (← readStringField wireType fieldNumber)
  | .bytes => do return some (← readBytesField wireType fieldNumber)
  | .message id _ => do
    onReader (expectWireType wireType .len fieldNumber)
    let value ← ofExcept (ops.create id)
    return some (← readMessagePartial ops id fieldNumber value)

def readRepeatedField {kind : ValueKind} {packed : Bool} {storage : Storage} (ops : MessageOps Sub)
    (preserve : Bool) (wireType : WireType) (fieldNumber : ℕ) :
    ParseM (Slot Sub (.repeated kind packed storage)) Unit := do
  onReader (Reader.consumeRepeatedElements 1 fieldNumber)
  match ← readRepeatedValue ops preserve Slot.unknownLens wireType fieldNumber kind with
  | none => return ()
  | some value => zoom Slot.valueLens (onBound (Items.pushBack (α := kind.Carrier Sub) false value))

/-- `while (!reader.eof())` with a tag read in every iteration: the bytes left bound their
number. -/
def fieldLoop (step : Tag → ParseM O Unit) : ℕ → ParseM O Unit
  | 0 => diverged
  | n + 1 => fun s =>
    if s.reader.eof then .ok () s
    else (do
      step (← onReader readTag)
      fieldLoop step n : ParseM O Unit) s

def forEachField (step : Tag → ParseM O Unit) : ParseM O Unit := fun s =>
  fieldLoop step (s.reader.rest.length + 1) s

namespace ValueKind

/-- `_wire` -/
def wireType : ValueKind → WireType
  | scalar t => t.wireType
  | string | bytes | message .. => .len

def isClosed : ValueKind → Bool
  | scalar t => t.isClosed
  | string | bytes | message .. => false

/-- `_closed_enum_invalid_condition` -/
def closedInvalid : (kind : ValueKind) → kind.Carrier Sub → Bool
  | scalar t, v => t.closedInvalid v
  | string, _ | bytes, _ | message .., _ => false

/-- `_emit_temp_decl` -/
def temporary (ops : MessageOps Sub) : (kind : ValueKind) → Except Error (kind.Carrier Sub)
  | scalar t => return (0 : t.Value)
  | string | bytes => return Bytes.empty
  | message id _ => ops.create id

end ValueKind

def KeyKind.temporary : (key : KeyKind) → key.Carrier Sub
  | .scalar t _ => (0 : t.Value)
  | .string => Bytes.empty

/-- The temporaries of an entry; `unknown` is `entry_is_unknown`. -/
structure Entry (Sub : ℕ → Type) (key : KeyKind) (value : ValueKind) where
  key : key.Carrier Sub
  value : value.Carrier Sub
  unknown : Bool := false

/-- `_emit_read_map_member` -/
def readMapMember (ops : MessageOps Sub) (fieldNumber : ℕ) : (kind : ValueKind) →
    kind.Carrier Sub → ParseM O (kind.Carrier Sub)
  | .scalar t, _ => onReader (readScalar t)
  | .string, _ => readString
  | .bytes, _ => readBytes
  | .message id _, value => readMessagePartial ops id fieldNumber value

section
variable {key : KeyKind} {value : ValueKind}

def readEntryField (ops : MessageOps Sub) (tag : Tag) : ParseM (Entry Sub key value) Unit := do
  if tag.fieldNumber = 1 ∧ tag.wireType = key.value.wireType then
    let read ← readMapMember ops 1 key.value (← get).obj.key
    modify fun s => { s with obj := { s.obj with key := read } }
  else if tag.fieldNumber = 2 ∧ tag.wireType = value.wireType then
    let read ← readMapMember ops 2 value (← get).obj.value
    if value.closedInvalid read then
      modify fun s => { s with obj := { s.obj with unknown := true } }
    else
      modify fun s => { s with obj := { s.obj with value := read, unknown := false } }
  else
    skipField tag.wireType tag.fieldNumber

/-- The lambda `parse_entry`. -/
def parseEntry (ops : MessageOps Sub) : ParseM (Entry Sub key value) Unit :=
  forEachField (readEntryField ops)

variable {maxBuckets : Usize}

/-- `insert_or_assign(move(key), move(value))` -/
def insertEntry (copier : Copier Sub) (entry : Entry Sub key value) :
    BoundM {m : HashMap maxBuckets (key.Carrier Sub) (value.Carrier Sub) // m.WellFormed} Unit :=
  fun s =>
    let _ := valueCopies copier key.value
    let _ := valueCopies copier value
    match h : HashMap.insertOrAssign false false entry.key entry.value false
      { ctx := s.ctx, obj := s.obj.val } with
    | .ok _ t => .ok () { ctx := t.ctx, obj := ⟨t.obj,
        (Exits.ok (HashMap.insertOrAssign_moved_exits maxBuckets.2 s.obj.2 _ _) h).2.1⟩ }
    | .error e t => .error e { ctx := t.ctx, obj := ⟨t.obj, by
        rw [(Exits.error (HashMap.insertOrAssign_moved_exits maxBuckets.2 s.obj.2 _ _) h).2.1]
        exact s.obj.2⟩ }

/-- The entry is parsed from the reader, through a nested one. -/
def readNormalEntry (ops : MessageOps Sub) (fieldNumber : ℕ) (fresh : Entry Sub key value) :
    ParseM (Slot Sub (.map key value maxBuckets)) Unit := do
  let size ← openNestedMessage fieldNumber
  let (_, entry) ← nestedMessage size (inTemporary fresh (parseEntry ops))
  if entry.unknown then return ()
  else zoom Slot.valueLens (onBound (insertEntry ops.copier entry))

/-- The entry's bytes are kept, to be stored when its value is no value of its enumeration. -/
def readStagedEntry (ops : MessageOps Sub) (fieldNumber : ℕ) (fresh : Entry Sub key value) :
    ParseM (Slot Sub (.map key value maxBuckets)) Unit := do
  let entrySize ← onReader readSize
  if entrySize > (← get).ctx.limits.maxMessageBytes then
    failField .sizeLimit fieldNumber
  else
    checkReader (Reader.canRead entrySize)
    pushRecursion fieldNumber
    let (stagedEntry, entry) ← releasing do
      let entryOffset := (← get).reader.position
      onContext (takeBlock entrySize)
      let stagedEntry ← onReader (Reader.readBuffer entrySize)
      let (_, entry) ← through
        (Reader.staged { data := stagedEntry.val, baseOffset := entryOffset } ·)
        (inTemporary fresh (parseEntry ops))
      return (stagedEntry.val, entry)
    if entry.unknown then
      zoom (Slot.unknownLens.comp storageLens)
        (onBound (MutableUnknownFieldSet.addLengthDelimited fieldNumber (.external stagedEntry)))
    else
      zoom Slot.valueLens (onBound (insertEntry ops.copier entry))

/-- `_emit_read_map` -/
def readMap (ops : MessageOps Sub) (preserve : Bool) (wireType : WireType) (fieldNumber : ℕ) :
    ParseM (Slot Sub (.map key value maxBuckets)) Unit := do
  onReader (expectWireType wireType .len fieldNumber)
  onReader (Reader.consumeMapEntries 1 fieldNumber)
  let fresh : Entry Sub key value :=
    { key := key.temporary, value := ← ofExcept (value.temporary ops) }
  if value.isClosed ∧ preserve then
    readStagedEntry ops fieldNumber fresh
  else
    readNormalEntry ops fieldNumber fresh

end

def SingularKind.wireType : SingularKind → WireType
  | value kind => kind.wireType
  | byteArray .. => .len

namespace FieldKind

/-- `allowed_wire_types` -/
def allows (wireType : WireType) : FieldKind → Bool
  | implicit kind _ | explicit kind .. => wireType = kind.wireType
  | «repeated» (.scalar t) .. => wireType = t.wireType || wireType = .len
  | «repeated» .string .. | «repeated» .bytes .. | «repeated» (.message ..) .. | map .. =>
    wireType = .len

/-- `_emit_parse_case`, where the wire type is one of the field's. -/
def parseCase (ops : MessageOps Sub) (preserve : Bool) (wireType : WireType) (fieldNumber : ℕ) :
    (kind : FieldKind) → ParseM (Slot Sub kind) Unit
  | implicit kind _ => do
    match ← readSingleValue ops preserve Slot.unknownLens wireType fieldNumber kind none with
    | none => return ()
    | some value => Slot.store value
  | explicit kind _ _ => do
    match ← readSingleValue ops preserve Slot.unknownLens wireType fieldNumber kind
      (← get).obj.value with
    | none => return ()
    | some value => Slot.store (some value)
  | «repeated» (.scalar _) _ _ =>
    if wireType = .len then readPackedField preserve fieldNumber
    else readRepeatedField ops preserve wireType fieldNumber
  | «repeated» .string _ _ | «repeated» .bytes _ _ | «repeated» (.message ..) _ _ =>
    readRepeatedField ops preserve wireType fieldNumber
  | map .. => readMap ops preserve wireType fieldNumber

end FieldKind

namespace MessageData

variable {M : MessageModel}

/-- The member of a field, and the storage of the unknown fields. -/
def fieldLens (i : M.Index) : Lens (MessageData M Sub) (Slot Sub (M.kind i)) where
  get m := { value := m.fields i, unknown := m.unknownFields }
  set slot m := { m.setField i slot.value with unknownFields := slot.unknown }
  set_get m := by simp only [setField_self]

def unknownLens : Lens (MessageData M Sub) Bytes where
  get m := m.unknownFields
  set unknownFields m := { m with unknownFields }
  set_get _ := rfl

/-- `merge_field_from_` -/
def mergeFieldFrom (ops : MessageOps Sub) (preserve : Bool) (fieldNumber : ℕ)
    (wireType : WireType) : ParseM (MessageData M Sub) Unit :=
  match M.find fieldNumber with
  | none => handleUnknownField preserve unknownLens wireType fieldNumber
  | some i => zoom (fieldLens i) <|
    if (M.kind i).allows wireType then (M.kind i).parseCase ops preserve wireType fieldNumber
    else handleUnknownField preserve Slot.unknownLens wireType fieldNumber

def mergeFieldsFrom (ops : MessageOps Sub) (preserve : Bool) : ParseM (MessageData M Sub) Unit :=
  forEachField fun tag =>
    withField tag.fieldNumber (mergeFieldFrom ops preserve tag.fieldNumber tag.wireType)

end MessageData

namespace Message

def mergeFieldsFrom (S : Schema) (preserve : Bool) : (levels id : ℕ) →
    ParseM (Message S levels id) Unit
  | 0, _ => diverged
  | levels + 1, _ => MessageData.mergeFieldsFrom
    { create := create S levels
      copier := copier S preserve levels
      mergeFieldsFrom := mergeFieldsFrom S preserve levels } preserve

def mergeFrom (S : Schema) (preserve : Bool) (levels id : ℕ) : ParseM (Message S levels id) Unit :=
  fun s =>
    let limits := s.ctx.limits
    (do
      through (Reader.parseBudget · limits.maxTotalBytes limits.maxRepeatedElements
          limits.maxMapEntries 0 0) do
        mergeFieldsFrom S preserve levels id
        checkReader fun reader =>
          if reader.limitReached then .error { code := .sizeLimit, offset := reader.position }
          else .ok ()
      ofExcept (validate S levels id (← get).obj)) s

/-- `parse` into a message, which is reset first, and again when the parse fails. -/
def parseInto (S : Schema) (preserve : Bool) (levels id : ℕ) : ParseM (Message S levels id) Unit :=
  fun s => match create S levels id with
    | .error e => .error e s
    | .ok fresh => match mergeFrom S preserve levels id { s with obj := fresh } with
      | .ok _ t => .ok () t
      | .error e t => .error e { t with obj := fresh }

theorem start_le (input : List UInt8) : 0 ≤ input.length := Nat.zero_le _

/-- `parse` from a span, in a context. -/
def parse (S : Schema) (preserve : Bool) (levels id : ℕ) (input : List UInt8) :
    EStateM Error Context (Message S levels id) := fun ctx =>
  match create S levels id with
  | .error e => .error e ctx
  | .ok output =>
    match parseInto S preserve levels id
      { ctx, obj := output, reader := .slice { data := input, pos_le := start_le input } } with
    | .ok _ t => .ok t.obj t.ctx
    | .error e t => .error e t.ctx

end Message

end Protocyte
