import Protocyte.Codec.Size
import Protocyte.Codec.Parse
import Protocyte.Runtime.Vector

/-! Packed runs of fixed-width values. On a little-endian machine a run is read into the vector's
own block and written from it; elsewhere the values go one by one. Both ways agree. -/
namespace Protocyte
open Foundation.Computation Foundation.LittleEndian

inductive Endian
  | little
  | big
  deriving DecidableEq

/-- The element types of the bulk functions. -/
inductive BulkFixedWidthPackedScalar
  | u32 | u64 | f32 | f64
  deriving DecidableEq

namespace BulkFixedWidthPackedScalar

/-- `sizeof` -/
def size : BulkFixedWidthPackedScalar → ℕ
  | u32 | f32 => 4
  | u64 | f64 => 8

/-- The field type whose values the elements are. -/
def type : BulkFixedWidthPackedScalar → ScalarType
  | u32 => .fixed32
  | u64 => .fixed64
  | f32 => .float
  | f64 => .double

abbrev Value (t : BulkFixedWidthPackedScalar) : Type := t.type.Value

/-- `Vector<T>::max_size()` -/
def maxSize (t : BulkFixedWidthPackedScalar) : ℕ := usizeMax / t.size

abbrev Output (t : BulkFixedWidthPackedScalar) : Type := Vec t.maxSize t.Value

def readFixedWidthPackedValue : (t : BulkFixedWidthPackedScalar) → ReaderM t.Value
  | u32 => readFixed32Value
  | u64 => readFixed64Value
  | f32 => readFloat
  | f64 => readDouble

/-- `static_cast<void>(out.resize_for_overwrite(old_size))` -/
def cutBack {t : BulkFixedWidthPackedScalar} (fill : t.Value) (oldSize : ℕ) (s : Parse t.Output) :
    Parse t.Output :=
  match onBound (Vec.resizeForOverwrite fill oldSize) s with
  | .ok _ s' | .error _ s' => s'

/-- The loop on a machine that is not little-endian, with `remaining` values to go. -/
def readEach (t : BulkFixedWidthPackedScalar) (fill : t.Value) (fieldNumber oldSize count : ℕ) :
    ℕ → ParseM t.Output Unit
  | 0 => return ()
  | remaining + 1 => fun s =>
    match onReader t.readFixedWidthPackedValue s with
    | .error e s => .error (e.withField fieldNumber) (cutBack fill oldSize s)
    | .ok value s =>
      let index := count - (remaining + 1)
      readEach t fill fieldNumber oldSize count remaining
        { s with obj := s.obj.set (oldSize + index) value }

/-- The bytes land in the vector's block as they come. -/
def readBlock (t : BulkFixedWidthPackedScalar) (fill : t.Value)
    (fieldNumber oldSize count byteCount : ℕ) : ParseM t.Output Unit := fun s =>
  match onReader (Reader.read byteCount) s with
  | .error e s => .error (e.withField fieldNumber) (cutBack fill oldSize s)
  | .ok bytes s =>
    .ok () { s with obj := s.obj.overwrite oldSize (fixedWidthValues t.type t.size count bytes) }

def readFixedWidthPackedValues (endian : Endian) (t : BulkFixedWidthPackedScalar) (fill : t.Value)
    (byteCount fieldNumber : ℕ) : ParseM t.Output Unit := do
  if byteCount = 0 then
    return ()
  else if byteCount % t.size ≠ 0 then
    failField .unexpectedEof fieldNumber
  else
    let count := byteCount / t.size
    withField fieldNumber (checkReader (Reader.canRead byteCount))
    withField fieldNumber (onReader (Reader.consumeRepeatedElements count fieldNumber))
    let oldSize := (← get).obj.size
    let total ← withField fieldNumber (ofExcept (checkedAdd oldSize count))
    withField fieldNumber (onBound (Vec.resizeForOverwrite fill total))
    match endian with
    | .little => readBlock t fill fieldNumber oldSize count byteCount
    | .big => readEach t fill fieldNumber oldSize count count

section
variable {σ : Type} [Writer σ]

def writeFixedWidthPackedValue : (t : BulkFixedWidthPackedScalar) → t.Value → EStateM Error σ Unit
  | u32, value => writeFixed32Value value
  | u64, value => writeFixed64Value value
  | f32, value => writeFloat value
  | f64, value => writeDouble value

/-- The bytes of the values in a little-endian machine's memory. -/
def memory (t : BulkFixedWidthPackedScalar) (values : List t.Value) : List UInt8 :=
  values.flatMap fun value => toBytes t.size (BitVec.toNat value)

def writeFixedWidthPackedValues (endian : Endian) (t : BulkFixedWidthPackedScalar)
    (values : List t.Value) : EStateM Error σ Unit := fun s =>
  if values.length = 0 then .ok () s
  else match checkedMul values.length t.size with
    | .error e => .error e s
    | .ok byteCount =>
      if endian = .little ∧ Writer.canWrite byteCount s then Writer.write (t.memory values) s
      else values.forM t.writeFixedWidthPackedValue s

end

/-- The scalar reader, charging each element to the budget before it is read. -/
def readOneByOne (t : BulkFixedWidthPackedScalar) (fieldNumber : ℕ) : ℕ → ReaderM (List t.Value)
  | 0 => return []
  | n + 1 => do
    Reader.consumeRepeatedElements 1 fieldNumber
    let value ← t.readFixedWidthPackedValue
    let values ← readOneByOne t fieldNumber n
    return value :: values

variable {t : BulkFixedWidthPackedScalar}

theorem size_pos (t : BulkFixedWidthPackedScalar) : 0 < t.size := by
  cases t <;> decide

theorem bulkWidth_type (t : BulkFixedWidthPackedScalar) : t.type.bulkWidth = some t.size := by
  cases t <;> rfl

theorem readFixedWidthPackedValue_eq (t : BulkFixedWidthPackedScalar) (r : Reader) :
    t.readFixedWidthPackedValue r =
      if t.size ≤ r.rest.length then
        .ok (BitVec.ofNat t.type.width (ofBytes (r.rest.take t.size))) (r.advance t.size)
      else .error (r.shortage t.size) r := by
  have hfixed : ∀ w n : ℕ, w / 8 = n → readFixedScalar w r =
      if n ≤ r.rest.length then .ok (BitVec.ofNat w (ofBytes (r.rest.take n))) (r.advance n)
      else .error (r.shortage n) r := by
    intro w n hn
    unfold readFixedScalar readFixed
    rw [hn]
    simp only [bind_apply, Reader.read_eq]
    split_ifs with h
    · rfl
    · rfl
  cases t
  · exact hfixed 32 4 rfl
  · exact hfixed 64 8 rfl
  · exact hfixed 32 4 rfl
  · exact hfixed 64 8 rfl

theorem length_fixedWidthValues (t : ScalarType) (width n : ℕ) (bytes : List UInt8) :
    (fixedWidthValues t width n bytes).length = n := by
  induction n generalizing bytes with
  | zero => rfl
  | succ n ih => rw [fixedWidthValues, List.length_cons, ih]

/-- Only the bytes of the values matter. -/
theorem fixedWidthValues_take (t : ScalarType) (width n : ℕ) (bytes : List UInt8) :
    fixedWidthValues t width n (bytes.take (n * width)) = fixedWidthValues t width n bytes := by
  induction n generalizing bytes with
  | zero => rfl
  | succ n ih =>
    have hle : width ≤ (n + 1) * width := by
      rw [Nat.succ_mul]
      omega
    have hsub : (n + 1) * width - width = n * width := by
      rw [Nat.succ_mul]
      omega
    rw [fixedWidthValues, fixedWidthValues, List.take_take, Nat.min_eq_left hle, List.drop_take,
      hsub, ih]

/-- One at a time the values are charged, read and consumed as in one step. -/
theorem readOneByOne_eq_ok (fieldNumber n : ℕ) (r r' : Reader) (values : List t.Value) :
    t.readOneByOne fieldNumber n r = .ok values r' ↔
      n * t.size ≤ r.rest.length ∧ values = fixedWidthValues t.type t.size n r.rest ∧
        (n = 0 ∧ r' = r ∨ 0 < n ∧ ∃ r₁, Reader.consumeRepeatedElements n fieldNumber r = .ok () r₁ ∧
          r' = r₁.advance (n * t.size)) := by
  induction n generalizing r r' values with
  | zero =>
    simp only [readOneByOne, pure_apply, EStateM.Result.ok.injEq, Nat.zero_mul, Nat.zero_le,
      true_and, fixedWidthValues, lt_self_iff_false, false_and, or_false]
    exact and_congr eq_comm eq_comm
  | succ n ih =>
    have hsum : (n + 1) * t.size = t.size + n * t.size := by
      rw [Nat.succ_mul, Nat.add_comm]
    simp only [readOneByOne, bind_eq_ok, readFixedWidthPackedValue_eq, ih, pure_apply,
      EStateM.Result.ok.injEq]
    constructor
    · rintro ⟨⟨⟩, r₁, hcharge, value, r₂, hvalue, values', r₃, ⟨hle, rfl, hrest⟩, rfl, rfl⟩
      have hr₁ := Reader.rest_of_consume hcharge
      split_ifs at hvalue with hroom
      obtain ⟨rfl, rfl⟩ := EStateM.Result.ok.inj hvalue
      rw [Reader.rest_advance, List.length_drop] at hle
      rw [hr₁] at hroom hle
      refine ⟨by omega, ?_, .inr ⟨Nat.succ_pos n, ?_⟩⟩
      · rw [fixedWidthValues, Reader.rest_advance, hr₁]
      · rcases hrest with ⟨rfl, rfl⟩ | ⟨-, r₄, hcharges, rfl⟩
        · exact ⟨r₁, hcharge, by rw [hsum, Nat.zero_mul, Nat.add_zero]⟩
        · obtain ⟨r₅, hr₅, rfl⟩ := (Reader.consume_advance _ _ _ _ _ _).mp hcharges
          refine ⟨r₅, ?_, ?_⟩
          · rw [Nat.add_comm]
            exact (Reader.consume_add _ _ _ _ _ _).mpr ⟨r₁, hcharge, hr₅⟩
          · rw [Reader.advance_advance, hsum]
    · rintro ⟨hle, rfl, ⟨hzero, -⟩ | ⟨-, r₅, hcharges, rfl⟩⟩
      · cases hzero
      · rw [Nat.add_comm] at hcharges
        obtain ⟨r₁, hcharge, hr₅⟩ := (Reader.consume_add _ _ _ _ _ _).mp hcharges
        have hr₁ := Reader.rest_of_consume hcharge
        have hroom : t.size ≤ r₁.rest.length := by
          rw [hr₁]
          omega
        refine ⟨(), r₁, hcharge, _, _, if_pos hroom, _, _, ⟨?_, rfl, ?_⟩, ?_, rfl⟩
        · rw [Reader.rest_advance, List.length_drop, hr₁]
          omega
        · rcases Nat.eq_zero_or_pos n with rfl | hn
          · refine .inl ⟨rfl, ?_⟩
            rw [Reader.consume_zero hr₅, hsum, Nat.zero_mul, Nat.add_zero]
          · refine .inr ⟨hn, _, (Reader.consume_advance _ _ _ _ _ _).mpr ⟨r₅, hr₅, rfl⟩, ?_⟩
            rw [Reader.advance_advance, hsum]
        · rw [fixedWidthValues, Reader.rest_advance, hr₁]

/-- The state after `n` values have been stored from `offset` on. -/
def stored (offset n : ℕ) (s : Parse t.Output) : Parse t.Output :=
  { s with
    obj := s.obj.overwrite offset (fixedWidthValues t.type t.size n s.reader.rest)
    reader := s.reader.advance (n * t.size) }

theorem readEach_eq (fill : t.Value) (fieldNumber : ℕ) {oldSize count n : ℕ} {s : Parse t.Output}
    (hroom : n * t.size ≤ s.reader.rest.length) (hn : n ≤ count)
    (hsize : oldSize + count ≤ s.obj.size) : readEach t fill fieldNumber oldSize count n s =
      .ok () (stored (oldSize + (count - n)) n s) := by
  induction n generalizing s with
  | zero =>
    unfold readEach stored
    rw [fixedWidthValues, Vec.overwrite_nil, Nat.zero_mul, Reader.advance_zero]
    rfl
  | succ n ih =>
    have hsum : (n + 1) * t.size = t.size + n * t.size := by
      rw [Nat.succ_mul, Nat.add_comm]
    have hone : t.size ≤ s.reader.rest.length := by omega
    have hread : onReader t.readFixedWidthPackedValue s = .ok
        (BitVec.ofNat t.type.width (ofBytes (s.reader.rest.take t.size)))
        { s with reader := s.reader.advance t.size } := by
      rw [onReader_eq_ok]
      exact ⟨_, by rw [readFixedWidthPackedValue_eq, if_pos hone], rfl⟩
    have hset : ∀ value : t.Value, ∀ index : ℕ, (s.obj.set index value).size = s.obj.size := by
      intro value index
      show (s.obj.items.set index value).length = s.obj.items.length
      rw [List.length_set]
    have hindex : oldSize + (count - (n + 1)) + 1 = oldSize + (count - n) := by omega
    have hlength : (fixedWidthValues t.type t.size n (s.reader.rest.drop t.size)).length = n :=
      length_fixedWidthValues _ _ _ _
    rw [readEach]
    simp only [hread]
    rw [ih]
    · unfold stored
      dsimp only
      rw [Reader.rest_advance, Reader.advance_advance, ← hsum, fixedWidthValues, ← hindex,
        Vec.overwrite_set]
      rw [List.length_cons, hlength]
      omega
    · dsimp only
      rw [Reader.rest_advance, List.length_drop]
      omega
    · omega
    · dsimp only
      rw [hset]
      exact hsize

theorem readBlock_eq {fill : t.Value} {fieldNumber oldSize count : ℕ} {s : Parse t.Output}
    (hroom : count * t.size ≤ s.reader.rest.length) :
    readBlock t fill fieldNumber oldSize count (count * t.size) s =
      .ok () (stored oldSize count s) := by
  have hread : onReader (Reader.read (count * t.size)) s = .ok
      (s.reader.rest.take (count * t.size))
      { s with reader := s.reader.advance (count * t.size) } := by
    rw [onReader_eq_ok]
    exact ⟨_, by rw [Reader.read_eq, if_pos hroom], rfl⟩
  unfold readBlock stored
  rw [hread]
  dsimp only
  rw [fixedWidthValues_take]

/-- Reading the values one at a time stays within the budget, consumes exactly the bytes and gives
no more values than the vector has or gets room for. -/
structure OneByOne (t : BulkFixedWidthPackedScalar) (byteCount fieldNumber : ℕ)
    (s : Parse t.Output) (values : List t.Value) (r : Reader) : Prop where
  read : t.readOneByOne fieldNumber (byteCount / t.size) s.reader = .ok values r
  consumed : s.reader.Moved r byteCount
  room : Vec.HasRoom s.toBound (s.obj.size + values.length)

theorem OneByOne.bytes {byteCount fieldNumber : ℕ} {s : Parse t.Output} {values : List t.Value}
    {r : Reader} (h : t.OneByOne byteCount fieldNumber s values r) :
    byteCount / t.size * t.size = byteCount := by
  obtain ⟨hle, -, ⟨hzero, rfl⟩ | ⟨-, r₁, hcharge, rfl⟩⟩ :=
    (readOneByOne_eq_ok _ _ _ _ _).mp h.read
  · have hposition := h.consumed.position
    rw [hzero]
    omega
  · have huncounted := (Reader.consume_exits _ _ _ _).ok hcharge
    have hposition := h.consumed.position
    have hsame : r₁.position = s.reader.position := by
      rw [← Reader.position_uncounted r₁, huncounted, Reader.position_uncounted]
    rw [Reader.position_advance _ (by rwa [Reader.rest_of_consume hcharge]), hsame] at hposition
    omega

/-- What the values are, when there are any. -/
theorem oneByOne_of_charge {byteCount fieldNumber count : ℕ} {s : Parse t.Output} {r₁ : Reader}
    (hpos : 0 < count) (hcount : count * t.size = byteCount)
    (hroom : byteCount ≤ s.reader.rest.length)
    (hcharge : Reader.consumeRepeatedElements count fieldNumber s.reader = .ok () r₁)
    (hvec : Vec.HasRoom s.toBound (s.obj.size + count)) :
    t.OneByOne byteCount fieldNumber s (fixedWidthValues t.type t.size count s.reader.rest)
      (r₁.advance byteCount) := by
  have hdiv : byteCount / t.size = count := by
    rw [← hcount, Nat.mul_div_cancel _ t.size_pos]
  have huncounted := (Reader.consume_exits _ _ _ _).ok hcharge
  have hrest := Reader.rest_of_consume hcharge
  refine ⟨?_, ?_, ?_⟩
  · rw [hdiv, readOneByOne_eq_ok]
    exact ⟨hcount ▸ hroom, rfl, .inr ⟨hpos, r₁, hcharge, by rw [hcount]⟩⟩
  · have hmoved := (Reader.Moved.of_uncounted huncounted).trans
      (Reader.Moved.advance (hrest.symm ▸ hroom))
    rwa [Nat.zero_add] at hmoved
  · rw [length_fixedWidthValues]
    exact hvec

theorem OneByOne.conditions {byteCount fieldNumber : ℕ} {s : Parse t.Output} {values : List t.Value}
    {r : Reader} (h : t.OneByOne byteCount fieldNumber s values r) (hpos : byteCount ≠ 0) :
    byteCount ≤ s.reader.rest.length ∧
      (∃ r₁, Reader.consumeRepeatedElements (byteCount / t.size) fieldNumber s.reader = .ok () r₁) ∧
      Vec.HasRoom s.toBound (s.obj.size + byteCount / t.size) := by
  have hbytes := h.bytes
  obtain ⟨hle, hvalues, ⟨hzero, -⟩ | ⟨-, r₁, hcharge, -⟩⟩ :=
    (readOneByOne_eq_ok _ _ _ _ _).mp h.read
  · rw [hzero] at hbytes
    omega
  · have hroom := h.room
    rw [hvalues, length_fixedWidthValues] at hroom
    exact ⟨hbytes ▸ hle, ⟨r₁, hcharge⟩, hroom⟩

/-- Both ways of filling the new items, after the vector has been sized. -/
theorem fill_eq (endian : Endian) {fill : t.Value} {fieldNumber oldSize count : ℕ}
    {s : Parse t.Output} (hroom : count * t.size ≤ s.reader.rest.length)
    (hsize : oldSize + count ≤ s.obj.size) :
    (match endian with
      | .little => readBlock t fill fieldNumber oldSize count (count * t.size)
      | .big => readEach t fill fieldNumber oldSize count count) s =
      .ok () (stored oldSize count s) := by
  cases endian with
  | little => exact readBlock_eq hroom
  | big =>
    have heach := readEach_eq fill fieldNumber hroom le_rfl hsize
    rwa [Nat.sub_self, Nat.add_zero] at heach

/-- The check that the bytes are there. -/
private theorem canRead_exits (n fieldNumber : ℕ) (s : Parse t.Output) :
    Exits (withField fieldNumber (checkReader (Reader.canRead n)) s)
      (fun _ s' => s' = s ∧ n ≤ s.reader.rest.length)
      (fun _ s' => s' = s ∧ s.reader.rest.length < n) := by
  by_cases hroom : n ≤ s.reader.rest.length
  · have hcan : withField fieldNumber (checkReader (Reader.canRead n)) s = .ok () s := by
      unfold withField checkReader
      rw [Reader.canRead_eq, if_pos hroom]
    rw [hcan]
    exact ⟨rfl, hroom⟩
  · have hcan : withField fieldNumber (checkReader (Reader.canRead n)) s =
        .error ((s.reader.shortage n).withField fieldNumber) s := by
      unfold withField checkReader
      rw [Reader.canRead_eq, if_neg hroom]
    rw [hcan]
    exact ⟨rfl, Nat.lt_of_not_le hroom⟩

/-- The elements are taken from the budget. -/
private theorem charge_exits (count fieldNumber : ℕ) (s : Parse t.Output) :
    Exits (withField fieldNumber (onReader (Reader.consumeRepeatedElements count fieldNumber)) s)
      (fun _ s' => s'.toBound = s.toBound ∧
        Reader.consumeRepeatedElements count fieldNumber s.reader = .ok () s'.reader)
      (fun _ s' => s'.obj = s.obj ∧
        ∀ r, Reader.consumeRepeatedElements count fieldNumber s.reader ≠ .ok () r) := by
  unfold withField onReader
  cases hcharge : Reader.consumeRepeatedElements count fieldNumber s.reader with
  | ok u r => exact ⟨rfl, rfl⟩
  | error e r => exact ⟨rfl, nofun⟩

/-- The number of items there are to be. -/
private theorem total_exits {count : ℕ} (hcount : count ≤ usizeMax) (fieldNumber : ℕ)
    (s : Parse t.Output) :
    Exits (withField fieldNumber (ofExcept (checkedAdd s.obj.size count)) s)
      (fun total s' => s' = s ∧ total = s.obj.size + count)
      (fun _ s' => s' = s ∧ ¬Vec.HasRoom s.toBound (s.obj.size + count)) := by
  have hmax : t.maxSize ≤ usizeMax := Nat.div_le_self _ _
  by_cases htotal : s.obj.size + count ≤ usizeMax
  · have hadd : withField fieldNumber (ofExcept (checkedAdd s.obj.size count)) s =
        .ok (s.obj.size + count) s := by
      rw [checkedAdd_of_le htotal]
      rfl
    rw [hadd]
    exact ⟨rfl, rfl⟩
  · have hadd : withField fieldNumber (ofExcept (checkedAdd s.obj.size count)) s = .error
        (Error.withField { code := .integerOverflow } fieldNumber) s := by
      rw [checkedAdd_of_gt (s.obj.size_le.trans hmax) hcount (Nat.lt_of_not_le htotal)]
      rfl
    rw [hadd]
    refine ⟨rfl, ?_⟩
    rintro (h | ⟨h, -⟩)
    · exact htotal (h.trans (s.obj.capacity_le.trans hmax))
    · exact htotal (h.trans hmax)

private theorem resize_exits (fill : t.Value) (total fieldNumber : ℕ) (s : Parse t.Output) :
    Exits (withField fieldNumber (onBound (Vec.resizeForOverwrite fill total)) s)
      (fun _ s' => s'.reader = s.reader ∧ Vec.HasRoom s.toBound total ∧
        s'.obj.items = s.obj.items.take total ++ List.replicate (total - s.obj.size) fill)
      (fun _ s' => s'.obj.items = s.obj.items ∧ ¬Vec.HasRoom s.toBound total) := by
  have hexits := Vec.resizeForOverwrite_exits fill total s.toBound
  have hiff := Vec.resizeForOverwrite_eq_ok_iff fill s.toBound total
  unfold withField onBound
  cases hresize : Vec.resizeForOverwrite fill total s.toBound with
  | ok u b => exact ⟨rfl, hiff.mp ⟨b, hresize⟩, (hexits.ok hresize).2⟩
  | error e b =>
    refine ⟨congrArg Vec.items (hexits.error hresize).2.1, fun hvec => ?_⟩
    obtain ⟨b', hb'⟩ := hiff.mpr hvec
    rw [hresize] at hb'
    cases hb'

/-- The new items of a vector that has been sized are filled. -/
private theorem fill_exits (endian : Endian) (fieldNumber : ℕ) {fill : t.Value} {count : ℕ}
    {s u : Parse t.Output} (hroom : count * t.size ≤ u.reader.rest.length)
    (hitems : u.obj.items = s.obj.items ++ List.replicate count fill) :
    Exits ((match endian with
      | .little => readBlock t fill fieldNumber s.obj.size count (count * t.size)
      | .big => readEach t fill fieldNumber s.obj.size count count) u)
      (fun _ s' => s'.obj.items = s.obj.items ++
        fixedWidthValues t.type t.size count u.reader.rest ∧
          s'.reader = u.reader.advance (count * t.size)) (fun _ _ => False) := by
  have hsize : u.obj.size = s.obj.size + count := by
    show u.obj.items.length = _
    rw [hitems, List.length_append, List.length_replicate]
  have hlength := length_fixedWidthValues t.type t.size count u.reader.rest
  rw [fill_eq endian hroom hsize.ge]
  refine ⟨?_, rfl⟩
  show (u.obj.overwrite s.obj.size (fixedWidthValues t.type t.size count u.reader.rest)).items = _
  rw [Vec.overwrite_items (by rw [hlength, hsize]), hlength, ← hsize, List.drop_length,
    List.append_nil, hitems, List.take_left]

/-- The function succeeds exactly when reading the values one at a time does, and then appends
them. A failure leaves the items alone. -/
theorem readFixedWidthPackedValues_exits (endian : Endian) (fill : t.Value) {byteCount : ℕ}
    (hbytes : byteCount ≤ usizeMax) (fieldNumber : ℕ) (s : Parse t.Output) :
    Exits (t.readFixedWidthPackedValues endian fill byteCount fieldNumber s)
      (fun _ s' => ∃ values r, t.OneByOne byteCount fieldNumber s values r ∧
        s'.obj.items = s.obj.items ++ values ∧ s'.reader = r)
      (fun _ s' => s'.obj.items = s.obj.items ∧
        ∀ values r, ¬t.OneByOne byteCount fieldNumber s values r) := by
  unfold readFixedWidthPackedValues
  by_cases hzero : byteCount = 0
  · rw [if_pos hzero]
    refine ⟨[], s.reader, ⟨?_, hzero ▸ .refl _, .inl s.obj.length_le⟩, (List.append_nil _).symm, rfl⟩
    rw [hzero, Nat.zero_div]
    rfl
  rw [if_neg hzero]
  by_cases hdvd : byteCount % t.size ≠ 0
  · rw [if_pos hdvd]
    refine ⟨rfl, ?_⟩
    intro values r h
    rw [← h.bytes, Nat.mul_mod_left] at hdvd
    exact hdvd rfl
  rw [if_neg hdvd]
  have hcount : byteCount / t.size * t.size = byteCount :=
    Nat.div_mul_cancel (Nat.dvd_of_mod_eq_zero (not_not.mp hdvd))
  have hpos : 0 < byteCount / t.size := by
    refine Nat.pos_of_ne_zero fun h => hzero ?_
    rw [← hcount, h, Nat.zero_mul]
  have hle : byteCount / t.size ≤ usizeMax := (Nat.div_le_self _ _).trans hbytes
  have hnoRoom (u : Parse t.Output) (hu : u.toBound = s.toBound)
      (hno : ¬Vec.HasRoom u.toBound (u.obj.size + byteCount / t.size)) :
      ∀ values r, ¬t.OneByOne byteCount fieldNumber s values r := by
    intro values r h
    rw [hu] at hno
    exact hno (h.conditions hzero).2.2
  -- the bytes are there
  refine Exits.bind ((canRead_exits byteCount fieldNumber s).mono (fun _ _ h => h) ?_) ?_
  · rintro e _ ⟨rfl, hlt⟩
    exact ⟨rfl, fun values r h => Nat.not_le_of_lt hlt (h.conditions hzero).1⟩
  rintro _ s ⟨rfl, hroom⟩
  -- the budget has the elements
  refine Exits.bind ((charge_exits (byteCount / t.size) fieldNumber s).mono (fun _ _ h => h) ?_) ?_
  · rintro e s' ⟨hobj, hno⟩
    refine ⟨congrArg Vec.items hobj, fun values r h => ?_⟩
    obtain ⟨r', hr'⟩ := (h.conditions hzero).2.1
    exact hno r' hr'
  rintro _ u ⟨hu, hcharge⟩
  have hobj : u.obj = s.obj := congrArg Bound.obj hu
  have hrest := Reader.rest_of_consume hcharge
  -- the vector has room
  rw [bind_of_ok (get_apply _)]
  refine Exits.bind ((total_exits hle fieldNumber u).mono (fun _ _ h => h) ?_) ?_
  · rintro e _ ⟨rfl, hno⟩
    exact ⟨congrArg Vec.items hobj, hnoRoom _ hu hno⟩
  rintro _ u ⟨rfl, rfl⟩
  refine Exits.bind ((resize_exits fill _ fieldNumber _).mono (fun _ _ h => h) ?_) ?_
  · rintro e s' ⟨hitems, hno⟩
    exact ⟨hitems.trans (congrArg Vec.items hobj), hnoRoom _ hu hno⟩
  rintro _ v ⟨hv, hvec, hitems⟩
  have hvitems : v.obj.items = s.obj.items ++ List.replicate (byteCount / t.size) fill := by
    rw [hitems, hobj, List.take_of_length_le (Nat.le_add_right s.obj.size _),
      Nat.add_sub_cancel_left]
  have hvroom : byteCount / t.size * t.size ≤ v.reader.rest.length := by rwa [hv, hrest, hcount]
  have hfill := fill_exits endian fieldNumber hvroom hvitems
  rw [hcount, hv, hrest] at hfill
  rw [hu] at hvec
  rw [hobj]
  exact hfill.mono (fun _ s' hs' =>
    ⟨_, _, oneByOne_of_charge hpos hcount hroom hcharge hvec, hs'.1, hs'.2⟩) fun _ _ h => h.elim

section
variable {σ : Type} [Writer σ]

theorem writeFixedWidthPackedValue_eq (t : BulkFixedWidthPackedScalar) (value : t.Value) :
    (t.writeFixedWidthPackedValue value : EStateM Error σ Unit) = writeScalar t.type value := by
  cases t <;> rfl

theorem memory_eq (t : BulkFixedWidthPackedScalar) (values : List t.Value) :
    t.memory values = values.flatMap (scalarBytes t.type) :=
  List.flatMap_congr fun value _ => (scalarBytes_bulk t.bulkWidth_type value).symm

theorem length_memory (t : BulkFixedWidthPackedScalar) (values : List t.Value) :
    (t.memory values).length = values.length * t.size := by
  unfold memory
  simp [List.length_flatMap]

variable [LawfulWriter σ]

theorem writes_memory (values : List t.Value) :
    Writes (Writer.write (t.memory values) : EStateM Error σ Unit) (t.memory values) :=
  Writes.bytes _

/-- One at a time the values write the bytes they have in memory. -/
theorem writes_each (values : List t.Value) :
    Writes (values.forM t.writeFixedWidthPackedValue : EStateM Error σ Unit) (t.memory values) := by
  rw [memory_eq]
  apply Writes.forM
  intro value _
  rw [writeFixedWidthPackedValue_eq]
  exact writes_scalar t.type value

theorem writes_fixedWidthPackedValues (endian : Endian) {values : List t.Value}
    (hbytes : values.length * t.size ≤ usizeMax) :
    Writes (t.writeFixedWidthPackedValues endian values : EStateM Error σ Unit)
      (t.memory values) := by
  have hmul : checkedMul values.length t.size = .ok (values.length * t.size) :=
    checkedMul_eq_ok.mpr ⟨hbytes, rfl⟩
  intro s
  unfold writeFixedWidthPackedValues
  simp only [hmul]
  by_cases hzero : values.length = 0
  · rw [if_pos hzero, List.length_eq_zero_iff.mp hzero]
    exact Writes.nil s
  · rw [if_neg hzero]
    split
    · exact writes_memory values s
    · exact writes_each values s

end

/-- Where the bulk path is taken, the other one would have written the same. -/
theorem slice_paths_eq (values : List t.Value) {w : SliceWriter}
    (hroom : Writer.canWrite (t.memory values).length w = true) :
    (Writer.write (t.memory values) : EStateM Error SliceWriter Unit) w =
      values.forM t.writeFixedWidthPackedValue w := by
  have hroom' : Room w (t.memory values).length := by
    show (t.memory values).length ≤ w.data.length - w.pos
    exact of_decide_eq_true hroom
  obtain ⟨u, hbulk, hu⟩ := (writes_memory values).room hroom'
  obtain ⟨v, heach, hv⟩ := (writes_each values).room hroom'
  rw [hbulk, heach, SliceWriter.wrote_unique hu hv]

theorem writeFixedWidthPackedValues_slice (values : List t.Value) (w : SliceWriter) :
    t.writeFixedWidthPackedValues .little values w = t.writeFixedWidthPackedValues .big values w := by
  unfold writeFixedWidthPackedValues
  simp only [true_and, reduceCtorEq, false_and, if_false]
  by_cases hzero : values.length = 0
  · rw [if_pos hzero, if_pos hzero]
  rw [if_neg hzero, if_neg hzero]
  cases hmul : checkedMul values.length t.size with
  | error e => rfl
  | ok byteCount =>
    obtain ⟨-, rfl⟩ := checkedMul_eq_ok.mp hmul
    dsimp only
    by_cases hroom : Writer.canWrite (values.length * t.size) w = true
    · rw [← length_memory] at hroom ⊢
      simp only [hroom, if_true]
      exact slice_paths_eq values hroom
    · simp only [hroom]
      rfl

/-- A run is read as its values one at a time would be, and written with the bytes its values write
one at a time. -/
theorem packedValues_agree (t : BulkFixedWidthPackedScalar) :
    (∀ (endian : Endian) (fill : t.Value) (byteCount fieldNumber : ℕ) (s : Parse t.Output),
      byteCount ≤ usizeMax →
      Exits (t.readFixedWidthPackedValues endian fill byteCount fieldNumber s)
        (fun _ s' => ∃ values r, t.OneByOne byteCount fieldNumber s values r ∧
          s'.obj.items = s.obj.items ++ values ∧ s'.reader = r)
        (fun _ s' => s'.obj.items = s.obj.items ∧
          ∀ values r, ¬t.OneByOne byteCount fieldNumber s values r)) ∧
    ∀ values : List t.Value,
      (∀ w : SliceWriter, t.writeFixedWidthPackedValues .little values w =
        t.writeFixedWidthPackedValues .big values w) ∧
      (values.length * t.size ≤ usizeMax →
        ∀ (σ : Type) [Writer σ] [LawfulWriter σ],
          Writes (Writer.write (t.memory values) : EStateM Error σ Unit) (t.memory values) ∧
          Writes (values.forM t.writeFixedWidthPackedValue : EStateM Error σ Unit)
            (t.memory values) ∧
          ∀ endian, Writes (t.writeFixedWidthPackedValues endian values : EStateM Error σ Unit)
            (t.memory values)) := by
  refine ⟨?_, ?_⟩
  · intro endian fill byteCount fieldNumber s hbytes
    exact readFixedWidthPackedValues_exits endian fill hbytes fieldNumber s
  · intro values
    refine ⟨writeFixedWidthPackedValues_slice values, ?_⟩
    intro hbytes σ _ _
    exact ⟨writes_memory values, writes_each values,
      fun endian => writes_fixedWidthPackedValues endian hbytes⟩

theorem start_le (data : List UInt8) : 0 ≤ data.length := Nat.zero_le _

/-- A parse of the bytes that has not started. -/
def startParse (data : List UInt8) : Parse (Output .u32) :=
  { ctx := { limits := { maxUnknownFieldBytes_le := unknownFieldBytes_le } }, obj := Vec.empty,
    reader := .slice { data := data, pos_le := start_le data } }

/-- Eight bytes to read, into a vector that holds nothing yet. -/
def sampleParse : Parse (Output .u32) := startParse [1, 0, 0, 0, 2, 0, 0, 0]

theorem packedValues_agree_sample :
    Exits (readFixedWidthPackedValues .little .u32 0 8 1 sampleParse)
        (fun _ s' => ∃ values r, OneByOne .u32 8 1 sampleParse values r ∧
          s'.obj.items = sampleParse.obj.items ++ values ∧ s'.reader = r)
        (fun _ s' => s'.obj.items = sampleParse.obj.items ∧
          ∀ values r, ¬OneByOne .u32 8 1 sampleParse values r) ∧
      Writes (writeFixedWidthPackedValues .little .u32 [1, 2] : EStateM Error (List UInt8) Unit)
        (memory .u32 [1, 2]) := by
  refine ⟨?_, ?_⟩
  · exact (packedValues_agree .u32).1 .little 0 8 1 sampleParse (by decide)
  · exact (((packedValues_agree .u32).2 [1, 2]).2 (by decide) (List UInt8)).2.2 .little

example : (match readFixedWidthPackedValues .little .u32 0 8 1 sampleParse with
    | .ok _ s => s.obj.items
    | .error _ _ => []) = [1, 2] := by
  rfl

end BulkFixedWidthPackedScalar

end Protocyte
