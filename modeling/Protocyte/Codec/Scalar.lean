import Protocyte.Runtime.Writer

/-! The scalar types of a schema: how a value is read, written and measured. Values are the bits
of their C++ type, so floating-point values are never computed with. -/
namespace Protocyte
open Foundation.Computation Foundation.Base128 Foundation.LittleEndian

/-- The scalar types; a closed enumeration comes with the numbers of its values. -/
inductive ScalarType
  | double | float | int64 | uint64 | int32 | fixed64 | fixed32 | bool | uint32
  | sfixed32 | sfixed64 | sint32 | sint64
  | openEnum
  | closedEnum (values : List (BitVec 32))
  deriving DecidableEq

namespace ScalarType

/-- The bits of the C++ type. -/
def width : ScalarType → ℕ
  | double | int64 | uint64 | fixed64 | sfixed64 | sint64 => 64
  | float | int32 | fixed32 | uint32 | sfixed32 | sint32 | openEnum | closedEnum _ => 32
  | bool => 1

abbrev Value (t : ScalarType) : Type := BitVec t.width

/-- `_wire` -/
def wireType : ScalarType → WireType
  | double | fixed64 | sfixed64 => .i64
  | float | fixed32 | sfixed32 => .i32
  | int64 | uint64 | int32 | bool | uint32 | sint32 | sint64 | openEnum | closedEnum _ => .varint

/-- `_fixed_scalar_width`, which is `_packed_fixed_width_size` too. -/
def fixedWidth : ScalarType → Option ℕ
  | double | fixed64 | sfixed64 => some 8
  | float | fixed32 | sfixed32 => some 4
  | int64 | uint64 | int32 | bool | uint32 | sint32 | sint64 | openEnum | closedEnum _ => none

/-- `_packed_bulk_fixed_width_size` -/
def bulkWidth : ScalarType → Option ℕ
  | double | fixed64 => some 8
  | float | fixed32 => some 4
  | sfixed32 | sfixed64 | int64 | uint64 | int32 | bool | uint32 | sint32 | sint64 | openEnum
  | closedEnum _ => none

/-- The types a map key may have. -/
def isKey : ScalarType → Bool
  | double | float | openEnum | closedEnum _ => false
  | int64 | uint64 | int32 | fixed64 | fixed32 | bool | uint32 | sfixed32 | sfixed64 | sint32
  | sint64 => true

/-- `_closed_enum_invalid_condition` -/
def closedInvalid : (t : ScalarType) → t.Value → Bool
  | closedEnum values, v => !values.contains v
  | double, _ | float, _ | int64, _ | uint64, _ | int32, _ | fixed64, _ | fixed32, _ | bool, _
  | uint32, _ | sfixed32, _ | sfixed64, _ | sint32, _ | sint64, _ | openEnum, _ => false

def isClosed : ScalarType → Bool
  | closedEnum _ => true
  | double | float | int64 | uint64 | int32 | fixed64 | fixed32 | bool | uint32 | sfixed32
  | sfixed64 | sint32 | sint64 | openEnum => false

end ScalarType

/-- `encode_zigzag32` and `encode_zigzag64`. -/
def encodeZigzag {w : ℕ} (value : BitVec w) : BitVec w :=
  (value <<< 1) ^^^ (0#w - (value >>> (w - 1)))

/-- `decode_zigzag32` and `decode_zigzag64`. -/
def decodeZigzag {w : ℕ} (value : BitVec w) : BitVec w :=
  (value >>> 1) ^^^ (~~~(value &&& 1#w) + 1#w)

def readVarintScalar (w : ℕ) : ReaderM (BitVec w) := do
  return BitVec.ofNat w (← readVarint)

def readZigzagScalar (w : ℕ) : ReaderM (BitVec w) := do
  return decodeZigzag (BitVec.ofNat w (← readVarint))

def readFixedScalar (w : ℕ) : ReaderM (BitVec w) := do
  return BitVec.ofNat w (← readFixed (w / 8))

def readBool : ReaderM (BitVec 1) := do
  return if (← readVarint) ≠ 0 then 1 else 0

def readInt32 : ReaderM (BitVec 32) := readVarintScalar 32
def readInt64 : ReaderM (BitVec 64) := readVarintScalar 64
def readUint32 : ReaderM (BitVec 32) := readVarintScalar 32
def readUint64 : ReaderM (BitVec 64) := readVarintScalar 64
def readEnum : ReaderM (BitVec 32) := readVarintScalar 32
def readSint32 : ReaderM (BitVec 32) := readZigzagScalar 32
def readSint64 : ReaderM (BitVec 64) := readZigzagScalar 64
def readFixed32Value : ReaderM (BitVec 32) := readFixedScalar 32
def readFixed64Value : ReaderM (BitVec 64) := readFixedScalar 64
def readSfixed32 : ReaderM (BitVec 32) := readFixedScalar 32
def readSfixed64 : ReaderM (BitVec 64) := readFixedScalar 64
def readFloat : ReaderM (BitVec 32) := readFixedScalar 32
def readDouble : ReaderM (BitVec 64) := readFixedScalar 64

/-- `_scalar_read_helper` -/
def readScalar : (t : ScalarType) → ReaderM t.Value
  | .double => readDouble
  | .float => readFloat
  | .int64 => readInt64
  | .uint64 => readUint64
  | .int32 => readInt32
  | .fixed64 => readFixed64Value
  | .fixed32 => readFixed32Value
  | .bool => readBool
  | .uint32 => readUint32
  | .sfixed32 => readSfixed32
  | .sfixed64 => readSfixed64
  | .sint32 => readSint32
  | .sint64 => readSint64
  | .openEnum | .closedEnum _ => readEnum

def expectWireType (actual expected : WireType) (fieldNumber : ℕ) : ReaderM Unit := fun r =>
  if actual ≠ expected then
    .error { code := .invalidWireType, offset := r.position, fieldNumber } r
  else .ok () r

/-- `read_*_field` -/
def readScalarField (t : ScalarType) (wireType : WireType) (fieldNumber : ℕ) :
    ReaderM t.Value := do
  expectWireType wireType t.wireType fieldNumber
  withField fieldNumber (readScalar t)

section
variable {σ : Type} [Writer σ]

/-- `static_cast<u64>` of a signed value extends the sign. -/
def writeSignedScalar {w : ℕ} (value : BitVec w) : EStateM Error σ Unit :=
  writeVarint (value.signExtend 64).toNat

def writeUnsignedScalar {w : ℕ} (value : BitVec w) : EStateM Error σ Unit :=
  writeVarint value.toNat

def writeZigzagScalar {w : ℕ} (value : BitVec w) : EStateM Error σ Unit :=
  writeVarint (encodeZigzag value).toNat

def writeFixedScalar {w : ℕ} (value : BitVec w) : EStateM Error σ Unit :=
  writeFixed (w / 8) value.toNat

def writeInt32 (value : BitVec 32) : EStateM Error σ Unit := writeSignedScalar value
def writeInt64 (value : BitVec 64) : EStateM Error σ Unit := writeSignedScalar value
def writeUint32 (value : BitVec 32) : EStateM Error σ Unit := writeUnsignedScalar value
def writeUint64 (value : BitVec 64) : EStateM Error σ Unit := writeUnsignedScalar value
def writeBool (value : BitVec 1) : EStateM Error σ Unit := writeVarint (if value = 1 then 1 else 0)
def writeEnum (value : BitVec 32) : EStateM Error σ Unit := writeSignedScalar value
def writeSint32 (value : BitVec 32) : EStateM Error σ Unit := writeZigzagScalar value
def writeSint64 (value : BitVec 64) : EStateM Error σ Unit := writeZigzagScalar value
def writeFixed32Value (value : BitVec 32) : EStateM Error σ Unit := writeFixedScalar value
def writeFixed64Value (value : BitVec 64) : EStateM Error σ Unit := writeFixedScalar value
def writeSfixed32 (value : BitVec 32) : EStateM Error σ Unit := writeFixedScalar value
def writeSfixed64 (value : BitVec 64) : EStateM Error σ Unit := writeFixedScalar value
def writeFloat (value : BitVec 32) : EStateM Error σ Unit := writeFixedScalar value
def writeDouble (value : BitVec 64) : EStateM Error σ Unit := writeFixedScalar value

/-- `_scalar_write_helper` -/
def writeScalar : (t : ScalarType) → t.Value → EStateM Error σ Unit
  | .double, v => writeDouble v
  | .float, v => writeFloat v
  | .int64, v => writeInt64 v
  | .uint64, v => writeUint64 v
  | .int32, v => writeInt32 v
  | .fixed64, v => writeFixed64Value v
  | .fixed32, v => writeFixed32Value v
  | .bool, v => writeBool v
  | .uint32, v => writeUint32 v
  | .sfixed32, v => writeSfixed32 v
  | .sfixed64, v => writeSfixed64 v
  | .sint32, v => writeSint32 v
  | .sint64, v => writeSint64 v
  | .openEnum, v | .closedEnum _, v => writeEnum v

/-- `write_*_field` -/
def writeScalarField (t : ScalarType) (fieldNumber : ℕ) (value : t.Value) :
    EStateM Error σ Unit := do
  writeTag fieldNumber t.wireType
  withField fieldNumber (writeScalar t value)

end

/-- The number whose varint `_varint_size_expr` measures. -/
def varintValue : (t : ScalarType) → t.Value → ℕ
  | .sint32, v | .sint64, v => (encodeZigzag v).toNat
  | .uint64, v => v.toNat
  | .bool, v | .uint32, v => v.toNat
  | .int64, v | .int32, v | .openEnum, v | .closedEnum _, v => (v.signExtend 64).toNat
  | .double, v | .float, v | .fixed64, v | .fixed32, v | .sfixed32, v | .sfixed64, v => v.toNat

/-- `_scalar_size` -/
def scalarSize (t : ScalarType) (value : t.Value) : ℕ :=
  match t.fixedWidth with
  | some width => width
  | none => varintSize (varintValue t value)

private theorem shift_top {w : ℕ} (v : BitVec (w + 1)) :
    0#(w + 1) - (v >>> w) = if v.msb then BitVec.allOnes (w + 1) else 0#(w + 1) := by
  have hs : v >>> w = if v.msb then 1#(w + 1) else 0#(w + 1) := by
    ext i hi
    have hm : v.msb = v[w] := by simp [BitVec.msb_eq_getLsbD_last, BitVec.getLsbD_eq_getElem]
    simp only [BitVec.getElem_ushiftRight, BitVec.getLsbD_eq_getElem?_getD]
    cases i with
    | zero => cases hb : v.msb <;> simp [← hm, hb]
    | succ i =>
      have hn : ¬ w + (i + 1) < w + 1 := by omega
      cases v.msb <;> simp [hn]
  rw [hs]
  cases v.msb with
  | false => simp
  | true => simp [BitVec.zero_sub, BitVec.neg_one_eq_allOnes]

private theorem low_mask {w : ℕ} (b : Bool) :
    ~~~(if b then 1#(w + 1) else 0#(w + 1)) + 1#(w + 1) =
      if b then BitVec.allOnes (w + 1) else 0#(w + 1) := by
  rw [← BitVec.neg_eq_not_add]
  cases b with
  | false => simp
  | true => exact BitVec.neg_one_eq_allOnes

theorem decodeZigzag_encodeZigzag {w : ℕ} (v : BitVec (w + 1)) :
    decodeZigzag (encodeZigzag v) = v := by
  have hm : v.msb = v[w] := by simp [BitVec.msb_eq_getLsbD_last, BitVec.getLsbD_eq_getElem]
  have hlow : encodeZigzag v &&& 1#(w + 1) = if v.msb then 1#(w + 1) else 0#(w + 1) := by
    rw [encodeZigzag, Nat.add_sub_cancel, shift_top]
    ext i hi
    cases i with
    | zero => cases v.msb <;> simp
    | succ i => cases v.msb <;> simp
  rw [decodeZigzag, hlow, low_mask, encodeZigzag, Nat.add_sub_cancel, shift_top]
  ext i hi
  simp only [BitVec.getElem_xor, BitVec.getElem_ushiftRight, BitVec.getLsbD_xor]
  by_cases h : i = w
  · subst h
    rw [hm]
    cases v[i] <;> simp [Nat.add_comm 1 i]
  · have hi' : 1 + i < w + 1 := by omega
    cases v.msb <;> simp [hi', BitVec.getLsbD_eq_getElem]

/-- The bytes of a value, after its tag. -/
def scalarBytes (t : ScalarType) (value : t.Value) : List UInt8 :=
  match t.fixedWidth with
  | some width => toBytes width value.toNat
  | none => encode (varintValue t value)

theorem varintValue_lt (t : ScalarType) (value : t.Value) : varintValue t value < 2 ^ 64 := by
  have hv := value.isLt
  have hlt : ∀ {w : ℕ} (v : BitVec w), w ≤ 64 → v.toNat < 2 ^ 64 := fun v hw =>
    Nat.lt_of_lt_of_le v.isLt (Nat.pow_le_pow_right (by decide) hw)
  cases t with
  | double | float | fixed64 | fixed32 | sfixed32 | sfixed64 | uint64 | bool | uint32 =>
    exact hlt value (by decide)
  | sint32 | sint64 => exact hlt (encodeZigzag value) (by decide)
  | int64 | int32 | openEnum | closedEnum values => exact (value.signExtend 64).isLt

theorem scalarSize_eq (t : ScalarType) (value : t.Value) :
    scalarSize t value = (scalarBytes t value).length := by
  unfold scalarSize scalarBytes
  cases t.fixedWidth with
  | some width => simp
  | none => exact varintSize_eq (varintValue_lt t value)

theorem writes_scalar {σ : Type} [Writer σ] [LawfulWriter σ] (t : ScalarType) (value : t.Value) :
    Writes (writeScalar t value : EStateM Error σ Unit) (scalarBytes t value) := by
  have hlt := varintValue_lt t value
  cases t with
  | double | float | fixed64 | fixed32 | sfixed32 | sfixed64 => exact writes_fixed _ _
  | int64 | int32 | openEnum | closedEnum values | sint32 | sint64 | uint64 | uint32 =>
    exact writes_varint hlt
  | bool =>
    have hb : (if value = 1 then 1 else 0) = varintValue .bool value := by
      have h2 : value.toNat < 2 := value.isLt
      by_cases h : value = 1
      · rw [if_pos h, h]
        rfl
      · have h0 : value.toNat ≠ 1 := fun h1 => h (BitVec.eq_of_toNat_eq h1)
        rw [if_neg h]
        change 0 = value.toNat
        omega
    change Writes (writeVarint (if value = 1 then 1 else 0)) _
    rw [hb]
    exact writes_varint hlt

theorem writes_scalarField {σ : Type} [Writer σ] [LawfulWriter σ] (t : ScalarType) {n : ℕ}
    (hn : n ≤ Foundation.Wire.maxNumber) (value : t.Value) :
    Writes (writeScalarField t n value : EStateM Error σ Unit)
      (Foundation.Wire.key n t.wireType.code ++ scalarBytes t value) :=
  (writes_tag t.wireType hn).bind ((writes_scalar t value).withField n)

private theorem readVarint_encode {r : Reader} {v : ℕ} {xs : List UInt8} (hv : v < 2 ^ 64)
    (hr : r.rest = encode v ++ xs) : readVarint r = .ok v (r.advance (encode v).length) :=
  readVarint_of_varint (Foundation.Wire.varint_encode hv) hr

private theorem readFixed_toBytes {r : Reader} {v w : ℕ} {xs : List UInt8} (hv : v < 256 ^ w)
    (hr : r.rest = toBytes w v ++ xs) : readFixed w r = .ok v (r.advance (toBytes w v).length) := by
  rw [length_toBytes, readFixed_eq_ok]
  exact ⟨_, xs, hr, length_toBytes w v, (ofBytes_toBytes w hv).symm, rfl⟩

private theorem ofNat_signExtend (v : BitVec 32) :
    BitVec.ofNat 32 (v.signExtend 64).toNat = v := by
  rw [BitVec.ofNat_toNat]
  refine BitVec.eq_of_getLsbD_eq fun i hi => ?_
  have h64 : i < 64 := by omega
  simp [BitVec.getElem_signExtend, hi, h64]

/-- A value is read back from its bytes. -/
theorem readScalar_scalarBytes (t : ScalarType) (value : t.Value) {r : Reader} {xs : List UInt8}
    (hr : r.rest = scalarBytes t value ++ xs) :
    readScalar t r = .ok value (r.advance (scalarBytes t value).length) := by
  have hlt := varintValue_lt t value
  cases t with
  | double | fixed64 | sfixed64 =>
    refine bind_of_ok (readFixed_toBytes value.isLt hr) |>.trans ?_
    rw [pure_apply, BitVec.ofNat_toNat]
    exact congrArg₂ _ (BitVec.setWidth_eq _) rfl
  | float | fixed32 | sfixed32 =>
    refine bind_of_ok (readFixed_toBytes value.isLt hr) |>.trans ?_
    rw [pure_apply, BitVec.ofNat_toNat]
    exact congrArg₂ _ (BitVec.setWidth_eq _) rfl
  | int32 | openEnum | closedEnum values =>
    refine bind_of_ok (readVarint_encode hlt hr) |>.trans ?_
    exact congrArg₂ _ (ofNat_signExtend value) rfl
  | int64 =>
    refine bind_of_ok (readVarint_encode hlt hr) |>.trans ?_
    refine congrArg₂ _ ?_ rfl
    exact (congrArg (fun v : BitVec 64 => BitVec.ofNat 64 v.toNat) (BitVec.signExtend_eq value)).trans
      (BitVec.ofNat_toNat 64 value |>.trans (BitVec.setWidth_eq _))
  | uint64 | uint32 =>
    refine bind_of_ok (readVarint_encode hlt hr) |>.trans ?_
    exact congrArg₂ _ ((BitVec.ofNat_toNat _ value).trans (BitVec.setWidth_eq _)) rfl
  | sint32 | sint64 =>
    refine bind_of_ok (readVarint_encode hlt hr) |>.trans ?_
    refine congrArg₂ _ ?_ rfl
    exact (congrArg decodeZigzag ((BitVec.ofNat_toNat _ (encodeZigzag value)).trans
      (BitVec.setWidth_eq _))).trans (decodeZigzag_encodeZigzag value)
  | bool =>
    refine bind_of_ok (readVarint_encode hlt hr) |>.trans ?_
    refine congrArg₂ _ ?_ rfl
    change (if value.toNat ≠ 0 then (1 : BitVec 1) else 0) = value
    have h2 : value.toNat < 2 := value.isLt
    by_cases h : value.toNat = 0
    · rw [if_neg (not_not_intro h)]
      exact (BitVec.eq_of_toNat_eq h).symm
    · rw [if_pos h]
      exact (BitVec.eq_of_toNat_eq (by change value.toNat = 1; omega)).symm

namespace Forward

theorem expectWireType (actual expected : WireType) (n : ℕ) :
    Forward (expectWireType actual expected n) := by
  intro r
  unfold Protocyte.expectWireType
  by_cases h : actual ≠ expected
  · simpa only [if_pos h] using ⟨⟨0, Nat.zero_le _, by simp⟩, by simp⟩
  · simpa only [if_neg h] using ⟨0, Nat.zero_le _, by simp⟩

theorem withField {α : Type} {x : ReaderM α} (n : ℕ) (hx : Forward x) :
    Forward (Protocyte.withField n x) := by
  intro r
  unfold Protocyte.withField
  cases h : x r with
  | ok a r' => simpa only [h] using hx.ok h
  | error e r' => simpa only [h, Error.withField_code] using hx.error h

theorem readScalar (t : ScalarType) : Forward (readScalar t) := by
  cases t with
  | double | float | fixed64 | fixed32 | sfixed32 | sfixed64 =>
    exact (readFixed _).bind fun _ => pure _
  | int64 | uint64 | int32 | uint32 | openEnum | closedEnum values | sint32 | sint64 | bool =>
    exact readVarint.bind fun _ => pure _

theorem readScalarField (t : ScalarType) (w : WireType) (n : ℕ) :
    Forward (readScalarField t w n) :=
  (expectWireType w _ n).bind fun _ => (readScalar t).withField n

end Forward

end Protocyte
