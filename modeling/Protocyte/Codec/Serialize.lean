import Protocyte.Codec.Validate

/-! Sizes and serialization. Both go over the fields in the order of their numbers; a length prefix
is written from a size that is computed before the bytes it announces. -/
namespace Protocyte
open Foundation.Computation

def addSize (total value : ℕ) : Except Error ℕ := checkedAdd total value

def lengthDelimitedFieldSize (fieldNumber payloadSize : ℕ) : Except Error ℕ := do
  let prefixSize ← withFieldError fieldNumber
    (checkedAdd (tagSize fieldNumber .len) (varintSize payloadSize))
  withFieldError fieldNumber (checkedAdd prefixSize payloadSize)

section
variable {Sub : ℕ → Type}

def messageFieldSize (encodedSize : (id : ℕ) → Sub id → Except Error ℕ) (fieldNumber id : ℕ)
    (value : Sub id) : Except Error ℕ := do
  let size ← withFieldError fieldNumber (encodedSize id value)
  withFieldError fieldNumber (lengthDelimitedFieldSize fieldNumber size)

namespace FieldState

/-- `_presence`: whether a field without presence flag differs from its default. -/
def isPresent : (kind : SingularKind) → kind.Carrier Sub → Bool
  | .value (.scalar _), v => BitVec.toNat v ≠ 0
  | .value .string, v | .value .bytes, v => !v.val.isEmpty
  | .byteArray .., v => !v.val.isEmpty
  | .value (.message ..), _ => true

/-- The value of a singular field, where it is serialized. -/
def implicitValue (kind : SingularKind) (v : kind.Carrier Sub) : Option (kind.Carrier Sub) :=
  if isPresent kind v then some v else none

end FieldState

/-- `_emit_add_size` -/
def addValueSize (encodedSize : (id : ℕ) → Sub id → Except Error ℕ)
    (fieldNumber errorFieldNumber : ℕ) (total : ℕ) :
    (kind : ValueKind) → kind.Carrier Sub → Except Error ℕ
  | .scalar t, v =>
    withFieldError errorFieldNumber (addSize total (tagSize fieldNumber .len + scalarSize t v))
  | .string, v | .bytes, v => do
    let size ← withFieldError errorFieldNumber (lengthDelimitedFieldSize fieldNumber v.val.length)
    withFieldError errorFieldNumber (addSize total size)
  | .message id _, v => do
    let size ← withFieldError errorFieldNumber (messageFieldSize encodedSize fieldNumber id v)
    withFieldError errorFieldNumber (addSize total size)

def addSingularSize (encodedSize : (id : ℕ) → Sub id → Except Error ℕ) (fieldNumber total : ℕ) :
    (kind : SingularKind) → kind.Carrier Sub → Except Error ℕ
  | .value kind, v => addValueSize encodedSize fieldNumber fieldNumber total kind v
  | .byteArray .., v => do
    let size ← withFieldError fieldNumber (lengthDelimitedFieldSize fieldNumber v.val.length)
    withFieldError fieldNumber (addSize total size)

/-- The size of a packed run, from the number of items or item by item. -/
def packedSize (t : ScalarType) (fieldNumber : ℕ) (items : List t.Value) : Except Error ℕ :=
  match t.fixedWidth with
  | some width => withFieldError fieldNumber (checkedMul items.length width)
  | none => items.foldlM (fun total v => withFieldError fieldNumber (addSize total (scalarSize t v))) 0

/-- The payload of a map entry, which always has both members. -/
def entryPayloadSize (encodedSize : (id : ℕ) → Sub id → Except Error ℕ) (fieldNumber : ℕ)
    (key : KeyKind) (value : ValueKind) (entry : key.Carrier Sub × value.Carrier Sub) :
    Except Error ℕ := do
  let payload ← addValueSize encodedSize 1 fieldNumber 0 key.value entry.1
  addValueSize encodedSize 2 fieldNumber payload value entry.2

/-- `_emit_size_statement` -/
def addFieldSize (encodedSize : (id : ℕ) → Sub id → Except Error ℕ) (fieldNumber total : ℕ) :
    (kind : FieldKind) → FieldState Sub kind → Except Error ℕ
  | .implicit kind _, v => match FieldState.implicitValue kind v with
    | some v => addSingularSize encodedSize fieldNumber total kind v
    | none => return total
  | .explicit kind _ _, some v => addSingularSize encodedSize fieldNumber total kind v
  | .explicit _ _ _, none => return total
  | .repeated (.scalar t) true _, items => do
    if items.val.isEmpty then
      return total
    else
      let payload ← packedSize t fieldNumber items.val
      let size ← withFieldError fieldNumber (lengthDelimitedFieldSize fieldNumber payload)
      withFieldError fieldNumber (addSize total size)
  | .repeated kind _ _, items =>
    items.val.foldlM (fun total v => addValueSize encodedSize fieldNumber fieldNumber total kind v)
      total
  | .map key value _, m =>
    m.val.entries.foldlM (fun total entry => do
      let payload ← entryPayloadSize encodedSize fieldNumber key value entry
      let size ← withFieldError fieldNumber (lengthDelimitedFieldSize fieldNumber payload)
      withFieldError fieldNumber (addSize total size)) total

namespace MessageData

variable {M : MessageModel}

def encodedSize (nestedValidate : (id : ℕ) → Sub id → Except Error Unit)
    (nestedSize : (id : ℕ) → Sub id → Except Error ℕ) (m : MessageData M Sub) :
    Except Error ℕ := do
  m.validate nestedValidate
  let total ← M.sorted.foldlM
    (fun total i => addFieldSize nestedSize (M.number i) total _ (m.fields i)) 0
  checkedAdd total m.unknownFields.val.length

end MessageData

end

def Message.encodedSize (S : Schema) : (levels id : ℕ) → Message S levels id → Except Error ℕ
  | 0, _, m => m.elim
  | levels + 1, _, m =>
    MessageData.encodedSize (Message.validate S levels) (encodedSize S levels) m

section
variable {σ : Type} [Writer σ] {Sub : ℕ → Type}

/-- `write_bytes_field`, which `write_string_field` is too. -/
def writeBytesField (fieldNumber : ℕ) (view : List UInt8) : EStateM Error σ Unit := do
  writeTag fieldNumber .len
  withField fieldNumber do
    writeVarint view.length
    Writer.write view

def writeMessageField (encodedSize : (id : ℕ) → Sub id → Except Error ℕ)
    (serialize : (id : ℕ) → Sub id → EStateM Error σ Unit) (fieldNumber id : ℕ) (value : Sub id) :
    EStateM Error σ Unit := do
  writeTag fieldNumber .len
  let size ← ofExcept (withFieldError fieldNumber (encodedSize id value))
  withField fieldNumber (writeVarint size)
  withField fieldNumber (serialize id value)

/-- `_emit_write_field` -/
def writeValue (encodedSize : (id : ℕ) → Sub id → Except Error ℕ)
    (serialize : (id : ℕ) → Sub id → EStateM Error σ Unit) (fieldNumber errorFieldNumber : ℕ) :
    (kind : ValueKind) → kind.Carrier Sub → EStateM Error σ Unit
  | .scalar t, v => withField errorFieldNumber (writeScalarField t fieldNumber v)
  | .string, v | .bytes, v => withField errorFieldNumber (writeBytesField fieldNumber v.val)
  | .message id _, v =>
    withField errorFieldNumber (writeMessageField encodedSize serialize fieldNumber id v)

def writeSingular (encodedSize : (id : ℕ) → Sub id → Except Error ℕ)
    (serialize : (id : ℕ) → Sub id → EStateM Error σ Unit) (fieldNumber : ℕ) :
    (kind : SingularKind) → kind.Carrier Sub → EStateM Error σ Unit
  | .value kind, v => writeValue encodedSize serialize fieldNumber fieldNumber kind v
  | .byteArray .., v => withField fieldNumber (writeBytesField fieldNumber v.val)

/-- On a little-endian machine the items of a vector are their bytes; a writer that cannot take
them all gets them one by one. -/
def writeFixedWidthPackedValues (t : ScalarType) (width : ℕ) (items : List t.Value) :
    EStateM Error σ Unit := fun s =>
  if items.length = 0 then .ok () s
  else match checkedMul items.length width with
    | .error e => .error e s
    | .ok byteCount =>
      if Writer.canWrite byteCount s then
        Writer.write
          (items.flatMap fun v => Foundation.LittleEndian.toBytes width (BitVec.toNat v)) s
      else items.forM (writeScalar t) s

/-- `_emit_write_packed_field` -/
def writePacked (t : ScalarType) (fieldNumber : ℕ) (items : List t.Value) :
    EStateM Error σ Unit := do
  let payload ← ofExcept (packedSize t fieldNumber items)
  withField fieldNumber (writeTag fieldNumber .len)
  withField fieldNumber (writeVarint payload)
  match t.bulkWidth with
  | some width => withField fieldNumber (writeFixedWidthPackedValues t width items)
  | none => items.forM fun v => withField fieldNumber (writeScalar t v)

/-- `_emit_write_map`, for one entry. -/
def writeEntry (encodedSize : (id : ℕ) → Sub id → Except Error ℕ)
    (serialize : (id : ℕ) → Sub id → EStateM Error σ Unit) (fieldNumber : ℕ) (key : KeyKind)
    (value : ValueKind) (entry : key.Carrier Sub × value.Carrier Sub) : EStateM Error σ Unit := do
  let payload ← ofExcept (entryPayloadSize encodedSize fieldNumber key value entry)
  withField fieldNumber (writeTag fieldNumber .len)
  withField fieldNumber (writeVarint payload)
  writeValue encodedSize serialize 1 fieldNumber key.value entry.1
  writeValue encodedSize serialize 2 fieldNumber value entry.2

/-- `_emit_serialize_statement` -/
def serializeField (encodedSize : (id : ℕ) → Sub id → Except Error ℕ)
    (serialize : (id : ℕ) → Sub id → EStateM Error σ Unit) (fieldNumber : ℕ) :
    (kind : FieldKind) → FieldState Sub kind → EStateM Error σ Unit
  | .implicit kind _, v => match FieldState.implicitValue kind v with
    | some v => writeSingular encodedSize serialize fieldNumber kind v
    | none => return ()
  | .explicit kind _ _, some v => writeSingular encodedSize serialize fieldNumber kind v
  | .explicit _ _ _, none => return ()
  | .repeated (.scalar t) true _, items =>
    if items.val.isEmpty then return () else writePacked t fieldNumber items.val
  | .repeated kind _ _, items =>
    items.val.forM (writeValue encodedSize serialize fieldNumber fieldNumber kind)
  | .map key value _, m =>
    m.val.entries.forM (writeEntry encodedSize serialize fieldNumber key value)

namespace MessageData

variable {M : MessageModel}

/-- Without preservation a message has no unknown fields to write. -/
def serialize (nestedValidate : (id : ℕ) → Sub id → Except Error Unit)
    (nestedSize : (id : ℕ) → Sub id → Except Error ℕ)
    (nestedSerialize : (id : ℕ) → Sub id → EStateM Error σ Unit) (m : MessageData M Sub) :
    EStateM Error σ Unit := do
  ofExcept (m.validate nestedValidate)
  M.sorted.forM fun i => serializeField nestedSize nestedSerialize (M.number i) _ (m.fields i)
  if m.unknownFields.val.isEmpty then return () else Writer.write m.unknownFields.val

end MessageData

end

namespace Message

variable {σ : Type} [Writer σ]

def serialize (S : Schema) : (levels id : ℕ) → Message S levels id → EStateM Error σ Unit
  | 0, _, m => m.elim
  | levels + 1, _, m =>
    MessageData.serialize (validate S levels) (encodedSize S levels) (serialize S levels) m

/-- `protocyte::serialize(message, span)`: the new contents of the span, and the bytes written. -/
def serializeToSpan (S : Schema) (levels id : ℕ) (m : Message S levels id) (output : List UInt8) :
    Except Error ℕ × List UInt8 :=
  match encodedSize S levels id m with
  | .error e => (.error e, output)
  | .ok size =>
    if size > output.length then (.error { code := .sizeLimit }, output)
    else match serialize S levels id m ({ data := output } : SliceWriter) with
      | .ok _ w => (.ok w.position, w.data)
      | .error e w => (.error e, w.data)

end Message

end Protocyte
