import Protocyte.Foundation.Wire
import Protocyte.Runtime.Reader
import Mathlib.Tactic.Ring

/-! Varints, tags and fixed-width values as the runtime reads them. A read succeeds exactly on
the words of the record grammar, and moves the reader past the word. -/
namespace Protocyte
open Foundation.Computation Foundation.Base128 Foundation.LittleEndian
open Foundation.Wire (Varint Key)

/-- The six wire types of the source and the two codes it leaves unnamed. -/
inductive WireType
  | varint | i64 | len | sgroup | egroup | i32 | reserved6 | reserved7
  deriving DecidableEq, Repr

namespace WireType

def code : WireType → ℕ
  | varint => 0 | i64 => 1 | len => 2 | sgroup => 3 | egroup => 4 | i32 => 5
  | reserved6 => 6 | reserved7 => 7

/-- The wire type in the low three bits of a raw tag. -/
def ofCode : ℕ → WireType
  | 0 => varint | 1 => i64 | 2 => len | 3 => sgroup | 4 => egroup | 5 => i32
  | 6 => reserved6 | _ => reserved7

@[simp] theorem ofCode_code (w : WireType) : ofCode w.code = w := by cases w <;> rfl

theorem code_lt (w : WireType) : w.code < 8 := by cases w <;> decide

theorem code_ofCode {c : ℕ} (h : c < 8) : (ofCode c).code = c := by
  match c, h with
  | 0, _ | 1, _ | 2, _ | 3, _ | 4, _ | 5, _ | 6, _ | 7, _ => rfl

theorem code_injective {v w : WireType} (h : v.code = w.code) : v = w := by
  rw [← ofCode_code v, h, ofCode_code]

end WireType

structure Tag where
  fieldNumber : ℕ
  wireType : WireType
  deriving DecidableEq, Repr

def decodeTag (raw : ℕ) : Tag :=
  { fieldNumber := raw >>> 3, wireType := .ofCode (raw &&& 0x7) }

/-- The raw value of a tag. -/
def Tag.raw (tag : Tag) : ℕ := (tag.fieldNumber <<< 3) ||| tag.wireType.code

theorem Tag.raw_eq (tag : Tag) : tag.raw = 8 * tag.fieldNumber + tag.wireType.code := by
  rw [raw, ← Nat.shiftLeft_add_eq_or_of_lt (i := 3) tag.wireType.code_lt, Nat.shiftLeft_eq]
  omega

theorem decodeTag_raw (tag : Tag) : decodeTag tag.raw = tag := by
  have hc := tag.wireType.code_lt
  have hn : tag.raw >>> 3 = tag.fieldNumber := by
    rw [tag.raw_eq, Nat.shiftRight_eq_div_pow]; omega
  have hw : tag.raw &&& 0x7 = tag.wireType.code := by
    rw [tag.raw_eq, Nat.and_two_pow_sub_one_eq_mod _ 3]; omega
  rw [decodeTag, hn, hw, WireType.ofCode_code]

theorem raw_decodeTag (raw : ℕ) : (decodeTag raw).raw = raw := by
  have hlt : raw % 8 < 8 := Nat.mod_lt _ (by decide)
  rw [Tag.raw_eq, decodeTag, Nat.and_two_pow_sub_one_eq_mod _ 3, WireType.code_ofCode hlt,
    Nat.shiftRight_eq_div_pow]
  exact Nat.div_add_mod raw 8

/-- `protocyte::unexpected(code, reader.position())`. -/
def failAt {α : Type} (code : ErrorCode) : ReaderM α :=
  fun r => .error { code, offset := r.position } r

/-- The groups after the first: `n` of them are still allowed, the next one at `shift`. The tenth
group may only carry the top bit of a 64-bit value. -/
def readVarintRest : ℕ → ℕ → ℕ → ReaderM ℕ
  | 0, _, _ => failAt .malformedVarint
  | n + 1, shift, value => do
    let byte := (← Reader.readByte).toNat
    if n = 0 ∧ byte &&& 0x7E ≠ 0 then
      failAt .malformedVarint
    else if byte &&& 0x80 = 0 then
      return value ||| ((byte &&& 0x7F) <<< shift)
    else
      readVarintRest n (shift + 7) (value ||| ((byte &&& 0x7F) <<< shift))

def readVarint : ReaderM ℕ := do
  let first := (← Reader.readByte).toNat
  if first &&& 0x80 = 0 then
    return first
  else
    readVarintRest 9 7 (first &&& 0x7F)

def readTag : ReaderM Tag := do
  let raw ← readVarint
  let fieldNumber := raw >>> 3
  if fieldNumber = 0 ∨ fieldNumber > 0x1FFFFFFF then
    failAt .invalidWireType
  else
    return decodeTag raw

def readLengthDelimitedSize : ReaderM ℕ := do
  let len ← readVarint
  if len > usizeMax then
    failAt .integerOverflow
  else
    return len

/-- `read_fixed32` and `read_fixed64` are `readFixed 4` and `readFixed 8`. -/
def readFixed (width : ℕ) : ReaderM ℕ := do
  let bytes ← Reader.read width
  return ofBytes bytes

private theorem and_7F (b : UInt8) : b.toNat &&& 0x7F = b.toNat % 128 :=
  Nat.and_two_pow_sub_one_eq_mod _ 7

private theorem continuation : ∀ b < 256, (b &&& 0x80 = 0 ↔ b < 128) := by decide +kernel

private theorem topBits : ∀ b < 256, (b &&& 0x7E = 0 ↔ b % 128 < 2) := by decide +kernel

private theorem or_group {value shift : ℕ} (h : value < 2 ^ shift) (g : ℕ) :
    value ||| (g <<< shift) = value + g * 2 ^ shift := by
  rw [Nat.or_comm, ← Nat.shiftLeft_add_eq_or_of_lt h, Nat.shiftLeft_eq, Nat.add_comm]

namespace Reader

theorem shortage_code (r : Reader) (n : ℕ) :
    (r.shortage n).code = .unexpectedEof ∨ (r.shortage n).code = .sizeLimit := by
  induction r with
  | slice r | staged r _ _ => exact Or.inl rfl
  | parseBudget inner remaining maxRep maxMap rep map ih =>
    simp only [shortage]
    split
    · exact Or.inr rfl
    · exact ih
  | limited inner remaining ih =>
    simp only [shortage]
    split
    · exact Or.inl rfl
    · exact ih
  | ref inner ih => exact ih

theorem readByte_cons {r : Reader} {b : UInt8} {bs : List UInt8} (h : r.rest = b :: bs) :
    readByte r = .ok b (r.advance 1) := by
  rw [readByte_eq, h]

theorem readByte_eq_ok {r r' : Reader} {b : UInt8} :
    readByte r = .ok b r' ↔ ∃ bs, r.rest = b :: bs ∧ r' = r.advance 1 := by
  rw [readByte_eq]
  cases hr : r.rest with
  | nil => simp
  | cons c cs =>
    constructor
    · intro h
      simp only [EStateM.Result.ok.injEq] at h
      exact ⟨cs, by rw [h.1], h.2.symm⟩
    · rintro ⟨bs, hb, rfl⟩
      rw [(List.cons.inj hb).1]

theorem read_eq_ok {r r' : Reader} {n : ℕ} {bs : List UInt8} :
    read n r = .ok bs r' ↔ n ≤ r.rest.length ∧ bs = r.rest.take n ∧ r' = r.advance n := by
  rw [read_eq]
  by_cases h : n ≤ r.rest.length
  · simp [h, eq_comm]
  · simp [h]

theorem skip_eq_ok {r r' : Reader} {n : ℕ} :
    skip n r = .ok () r' ↔ n ≤ r.rest.length ∧ r' = r.advance n := by
  rw [skip_eq]
  by_cases h : n ≤ r.rest.length
  · simp [h, eq_comm]
  · simp [h]

theorem skip_splits {r r' : Reader} {n : ℕ} : skip n r = .ok () r' ↔
    ∃ bs xs, r.rest = bs ++ xs ∧ bs.length = n ∧ r' = r.advance bs.length := by
  rw [skip_eq_ok]
  constructor
  · rintro ⟨hn, rfl⟩
    have hl : (r.rest.take n).length = n := by simp [hn]
    exact ⟨_, r.rest.drop n, by simp, hl, by rw [hl]⟩
  · rintro ⟨bs, xs, hr, rfl, rfl⟩
    exact ⟨by simp [hr], rfl⟩

end Reader

/-- A computation that only moves the reader forward, and fails only over the bytes it finds. -/
def Forward {α : Type} (x : ReaderM α) : Prop :=
  ∀ r, match x r with
    | .ok _ r' => ∃ k ≤ r.rest.length, r' = r.advance k
    | .error e r' => (∃ k ≤ r.rest.length, r' = r.advance k) ∧ e.code ∈
      [.malformedVarint, .unexpectedEof, .sizeLimit, .invalidWireType, .integerOverflow]

namespace Forward

variable {α β : Type}

theorem ok {x : ReaderM α} (hx : Forward x) {r r' : Reader} {a : α} (h : x r = .ok a r') :
    ∃ k ≤ r.rest.length, r' = r.advance k := by
  simpa [h] using hx r

theorem error {x : ReaderM α} (hx : Forward x) {r r' : Reader} {e : Error}
    (h : x r = .error e r') : (∃ k ≤ r.rest.length, r' = r.advance k) ∧ e.code ∈
      [.malformedVarint, .unexpectedEof, .sizeLimit, .invalidWireType, .integerOverflow] := by
  simpa only [h] using hx r

theorem pure (a : α) : Forward (Pure.pure a) := fun r => ⟨0, Nat.zero_le _, by simp⟩

theorem failAt {code : ErrorCode} (h : code ∈
    [.malformedVarint, .unexpectedEof, .sizeLimit, .invalidWireType, .integerOverflow]) :
    Forward (failAt code : ReaderM α) := fun r => ⟨⟨0, Nat.zero_le _, by simp⟩, h⟩

private theorem advance_le {r r' r'' : Reader} (h : ∃ k ≤ r.rest.length, r' = r.advance k)
    (h' : ∃ k ≤ r'.rest.length, r'' = r'.advance k) : ∃ k ≤ r.rest.length, r'' = r.advance k := by
  obtain ⟨j, hj, rfl⟩ := h
  obtain ⟨k, hk, rfl⟩ := h'
  rw [Reader.rest_advance, List.length_drop] at hk
  exact ⟨j + k, by omega, r.advance_advance j k⟩

theorem bind {x : ReaderM α} {f : α → ReaderM β} (hx : Forward x) (hf : ∀ a, Forward (f a)) :
    Forward (x >>= f) := by
  intro r
  rw [bind_apply]
  cases h : x r with
  | error e r' => exact hx.error h
  | ok a r' =>
    have hr := hx.ok h
    simp only
    cases h' : f a r' with
    | ok b r'' => exact advance_le hr ((hf a).ok h')
    | error e r'' => exact ⟨advance_le hr ((hf a).error h').1, ((hf a).error h').2⟩

theorem ite {c : Prop} [Decidable c] {x y : ReaderM α} (hx : Forward x) (hy : Forward y) :
    Forward (if c then x else y) := by
  split
  · exact hx
  · exact hy

private theorem shortage (r : Reader) (n : ℕ) : (∃ k ≤ r.rest.length, r = r.advance k) ∧
    (r.shortage n).code ∈
      [.malformedVarint, .unexpectedEof, .sizeLimit, .invalidWireType, .integerOverflow] := by
  refine ⟨⟨0, Nat.zero_le _, by simp⟩, ?_⟩
  rcases r.shortage_code n with h | h <;> simp [h]

theorem readByte : Forward Reader.readByte := by
  intro r
  rw [Reader.readByte_eq]
  cases h : r.rest with
  | nil => simpa only [h] using shortage r 1
  | cons b bs => exact ⟨1, by simp, rfl⟩

theorem read (n : ℕ) : Forward (Reader.read n) := by
  intro r
  rw [Reader.read_eq]
  by_cases h : n ≤ r.rest.length
  · simpa only [h, if_true] using ⟨n, h, rfl⟩
  · simpa only [h, if_false] using shortage r n

theorem skip (n : ℕ) : Forward (Reader.skip n) := by
  intro r
  rw [Reader.skip_eq]
  by_cases h : n ≤ r.rest.length
  · simpa only [h, if_true] using ⟨n, h, rfl⟩
  · simpa only [h, if_false] using shortage r n

theorem readVarintRest (n shift value : ℕ) : Forward (readVarintRest n shift value) := by
  induction n generalizing shift value with
  | zero => exact failAt (by simp)
  | succ n ih => exact readByte.bind fun b => (failAt (by simp)).ite ((pure _).ite (ih _ _))

theorem readVarint : Forward readVarint :=
  readByte.bind fun _ => (pure _).ite (readVarintRest 9 7 _)

theorem readTag : Forward readTag := readVarint.bind fun _ => (failAt (by simp)).ite (pure _)

theorem readLengthDelimitedSize : Forward readLengthDelimitedSize :=
  readVarint.bind fun _ => (failAt (by simp)).ite (pure _)

theorem readFixed (width : ℕ) : Forward (readFixed width) := (read width).bind fun _ => pure _

end Forward

private theorem group_lt {value g shift : ℕ} (hv : value < 2 ^ shift) (hg : g < 128) :
    value + g * 2 ^ shift < 2 ^ (shift + 7) := by
  have hm : g * 2 ^ shift ≤ 127 * 2 ^ shift := Nat.mul_le_mul_right _ (by omega)
  rw [Nat.pow_add]
  omega

private theorem mod_group {b : ℕ} (hlt : b < 256) (hb : 128 ≤ b) (w : ℕ) :
    b % 128 + w * 2 ^ 7 = b - 128 + 128 * w := by
  omega

private theorem last_lt {n b : ℕ} (hb : b < 128) (h0 : n = 0 → b % 128 < 2) :
    b < 2 ^ (7 * (n + 1) - 6) := by
  cases n with
  | zero => have := h0 rfl; omega
  | succ n =>
    have hp : 2 ^ 7 ≤ 2 ^ (7 * (n + 1 + 1) - 6) := Nat.pow_le_pow_right (by decide) (by omega)
    omega

private theorem more_lt_iff {n g w : ℕ} (hn : 0 < n) (hg : g < 128) :
    g + 128 * w < 2 ^ (7 * (n + 1) - 6) ↔ w < 2 ^ (7 * n - 6) := by
  have he : 7 * (n + 1) - 6 = 7 + (7 * n - 6) := by omega
  rw [he, Nat.pow_add]
  omega

private theorem readVarintRest_ok (n : ℕ) {r r' : Reader} {shift value v : ℕ}
    (hv : value < 2 ^ shift) (h : readVarintRest n shift value r = .ok v r') :
    ∃ bs xs w, r.rest = bs ++ xs ∧ Numeral bs w ∧ bs.length ≤ n ∧ w < 2 ^ (7 * n - 6) ∧
      v = value + w * 2 ^ shift ∧ r' = r.advance bs.length := by
  induction n generalizing r shift value with
  | zero => simp [readVarintRest, failAt] at h
  | succ n ih =>
    simp only [readVarintRest, bind_eq_ok] at h
    obtain ⟨b, r₁, hb, h⟩ := h
    obtain ⟨cs, hr, rfl⟩ := Reader.readByte_eq_ok.mp hb
    have hlt := b.toNat_lt
    rw [or_group hv, and_7F] at h
    by_cases hc : n = 0 ∧ b.toNat &&& 0x7E ≠ 0
    · simp [hc, failAt] at h
    rw [if_neg hc] at h
    by_cases hm : b.toNat &&& 0x80 = 0
    · have hb := (continuation _ hlt).mp hm
      rw [if_pos hm, pure_apply, EStateM.Result.ok.injEq] at h
      obtain ⟨rfl, rfl⟩ := h
      have h0 : n = 0 → b.toNat % 128 < 2 := fun h0 =>
        (topBits _ hlt).mp (Decidable.not_not.mp fun hne => hc ⟨h0, hne⟩)
      exact ⟨[b], cs, b.toNat, hr, .last b hb, by simp, last_lt hb h0,
        by rw [Nat.mod_eq_of_lt hb], rfl⟩
    · have hb : ¬ b.toNat < 128 := fun hb => hm ((continuation _ hlt).mpr hb)
      have hg : b.toNat % 128 = b.toNat - 128 := by omega
      rw [if_neg hm] at h
      obtain ⟨bs, xs, w, hbs, hw, hl, hwn, rfl, rfl⟩ := ih (group_lt hv (by omega)) h
      rw [Reader.rest_advance, hr, List.drop_one, List.tail_cons] at hbs
      have hpos := hw.length_pos
      refine ⟨b :: bs, xs, b.toNat - 128 + 128 * w, by rw [hr, hbs]; rfl, .more b (by omega) hw,
        by simp [hl], (more_lt_iff (by omega) (by omega)).mpr hwn, ?_, ?_⟩
      · rw [hg, Nat.pow_add]; ring
      · rw [Reader.advance_advance, List.length_cons, Nat.add_comm]

private theorem readVarintRest_of_numeral {bs : List UInt8} {w : ℕ} (hw : Numeral bs w) (n : ℕ)
    {r : Reader} {xs : List UInt8} {shift value : ℕ} (hv : value < 2 ^ shift)
    (hr : r.rest = bs ++ xs) (hl : bs.length ≤ n) (hwn : w < 2 ^ (7 * n - 6)) :
    readVarintRest n shift value r = .ok (value + w * 2 ^ shift) (r.advance bs.length) := by
  induction hw generalizing n r shift value with
  | last b hb =>
    obtain ⟨n, rfl⟩ : ∃ k, n = k + 1 := ⟨n - 1, by simp at hl; omega⟩
    have hc : ¬ (n = 0 ∧ b.toNat &&& 0x7E ≠ 0) := by
      rintro ⟨rfl, hne⟩
      exact hne ((topBits _ b.toNat_lt).mpr (by omega))
    rw [readVarintRest, bind_of_ok (Reader.readByte_cons hr), if_neg hc,
      if_pos ((continuation _ b.toNat_lt).mpr hb), or_group hv, and_7F, Nat.mod_eq_of_lt hb]
    rfl
  | @more b bs w hb hw ih =>
    have hlt := b.toNat_lt
    have hpos := hw.length_pos
    rw [List.length_cons] at hl
    obtain ⟨n, rfl⟩ : ∃ k, n = k + 1 := ⟨n - 1, by omega⟩
    have hg : b.toNat % 128 = b.toNat - 128 := by omega
    have hc : ¬ (n = 0 ∧ b.toNat &&& 0x7E ≠ 0) := by omega
    have hm : ¬ b.toNat &&& 0x80 = 0 := fun h => by have := (continuation _ hlt).mp h; omega
    rw [readVarintRest, bind_of_ok (Reader.readByte_cons hr), if_neg hc, if_neg hm, or_group hv,
      and_7F, hg, ih n (group_lt hv (by omega)) (by simp [hr]) (by omega)
        ((more_lt_iff (by omega) (by omega)).mp hwn), Reader.advance_advance, List.length_cons]
    congr 1
    · rw [Nat.pow_add]; ring
    · rw [Nat.add_comm]

theorem readVarint_of_varint {r : Reader} {bs xs : List UInt8} {v : ℕ} (h : Varint bs v)
    (hr : r.rest = bs ++ xs) : readVarint r = .ok v (r.advance bs.length) := by
  obtain ⟨hn, hl, hv⟩ := h
  cases hn with
  | last b hb =>
    rw [readVarint, bind_of_ok (Reader.readByte_cons hr),
      if_pos ((continuation _ b.toNat_lt).mpr hb)]
    rfl
  | @more b bs w hb hw =>
    have hlt := b.toNat_lt
    have hm : ¬ b.toNat &&& 0x80 = 0 := fun h => by have := (continuation _ hlt).mp h; omega
    rw [readVarint, bind_of_ok (Reader.readByte_cons hr), if_neg hm, and_7F,
      readVarintRest_of_numeral hw 9 (by omega) (by simp [hr] : (r.advance 1).rest = bs ++ xs)
        (by rw [List.length_cons] at hl; omega) (by omega), Reader.advance_advance,
      List.length_cons]
    have hg : b.toNat % 128 + w * 2 ^ 7 = b.toNat - 128 + 128 * w := mod_group hlt hb w
    rw [hg, Nat.add_comm 1]

theorem readVarint_eq_ok {r r' : Reader} {v : ℕ} :
    readVarint r = .ok v r' ↔
      ∃ bs xs, r.rest = bs ++ xs ∧ Varint bs v ∧ r' = r.advance bs.length := by
  constructor
  · intro h
    simp only [readVarint, bind_eq_ok] at h
    obtain ⟨b, r₁, hb, h⟩ := h
    obtain ⟨cs, hr, rfl⟩ := Reader.readByte_eq_ok.mp hb
    have hlt := b.toNat_lt
    by_cases hm : b.toNat &&& 0x80 = 0
    · have hb := (continuation _ hlt).mp hm
      rw [if_pos hm, pure_apply, EStateM.Result.ok.injEq] at h
      obtain ⟨rfl, rfl⟩ := h
      exact ⟨[b], cs, hr, ⟨.last b hb, by simp, by omega⟩, rfl⟩
    · have hb : ¬ b.toNat < 128 := fun hb => hm ((continuation _ hlt).mpr hb)
      rw [if_neg hm, and_7F] at h
      obtain ⟨bs, xs, w, hbs, hw, hl, hwn, rfl, rfl⟩ :=
        readVarintRest_ok 9 (by omega) h
      rw [Reader.rest_advance, hr, List.drop_one, List.tail_cons] at hbs
      have hw57 : w < 2 ^ 57 := hwn
      have hg : b.toNat % 128 + w * 2 ^ 7 = b.toNat - 128 + 128 * w :=
        mod_group hlt (Nat.le_of_not_lt hb) w
      have hn : Numeral (b :: bs) (b.toNat - 128 + 128 * w) := .more b (Nat.le_of_not_lt hb) hw
      refine ⟨b :: bs, xs, by rw [hr, hbs]; rfl, ⟨by rw [hg]; exact hn, by rw [List.length_cons]; omega, ?_⟩,
        ?_⟩
      · clear hwn
        omega
      · rw [Reader.advance_advance, List.length_cons, Nat.add_comm]
  · rintro ⟨bs, xs, hr, hv, rfl⟩
    exact readVarint_of_varint hv hr

theorem readTag_eq_ok {r r' : Reader} {tag : Tag} :
    readTag r = .ok tag r' ↔ ∃ ks xs, r.rest = ks ++ xs ∧
      Key ks tag.fieldNumber tag.wireType.code ∧ r' = r.advance ks.length := by
  have hdiv : ∀ raw : ℕ, raw >>> 3 = (decodeTag raw).fieldNumber := fun _ => rfl
  simp only [readTag, bind_eq_ok, readVarint_eq_ok]
  constructor
  · rintro ⟨raw, r₁, ⟨ks, xs, hr, hv, rfl⟩, h⟩
    by_cases hc : raw >>> 3 = 0 ∨ raw >>> 3 > 0x1FFFFFFF
    · simp [hc, failAt] at h
    rw [if_neg hc, pure_apply, EStateM.Result.ok.injEq] at h
    obtain ⟨rfl, rfl⟩ := h
    rw [hdiv] at hc
    refine ⟨ks, xs, hr, ⟨?_, by omega, ?_, WireType.code_lt _⟩, rfl⟩
    · rwa [← Tag.raw_eq, raw_decodeTag]
    · unfold Foundation.Wire.maxNumber; omega
  · rintro ⟨ks, xs, hr, ⟨hv, hpos, hmax, -⟩, rfl⟩
    rw [← Tag.raw_eq] at hv
    refine ⟨tag.raw, _, ⟨ks, xs, hr, hv, rfl⟩, ?_⟩
    unfold Foundation.Wire.maxNumber at hmax
    rw [hdiv, decodeTag_raw, if_neg (by omega)]
    rfl

theorem readLengthDelimitedSize_eq_ok {r r' : Reader} {n : ℕ} :
    readLengthDelimitedSize r = .ok n r' ↔
      ∃ bs xs, r.rest = bs ++ xs ∧ Varint bs n ∧ r' = r.advance bs.length := by
  rw [← readVarint_eq_ok, readLengthDelimitedSize, bind_eq_ok]
  constructor
  · rintro ⟨len, r₁, hv, h⟩
    by_cases hc : len > usizeMax
    · simp [hc, failAt] at h
    rw [if_neg hc, pure_apply, EStateM.Result.ok.injEq] at h
    rwa [h.1, h.2] at hv
  · intro hv
    obtain ⟨bs, xs, -, ⟨-, -, hlt⟩, -⟩ := readVarint_eq_ok.mp hv
    have hc : ¬ n > usizeMax := Nat.not_lt.mpr (Nat.le_of_lt_succ hlt)
    exact ⟨n, r', hv, by rw [if_neg hc]; rfl⟩

theorem readFixed_eq_ok {r r' : Reader} {width v : ℕ} :
    readFixed width r = .ok v r' ↔ ∃ bs xs, r.rest = bs ++ xs ∧ bs.length = width ∧
      v = ofBytes bs ∧ r' = r.advance width := by
  simp only [readFixed, bind_eq_ok, Reader.read_eq_ok, pure_apply, EStateM.Result.ok.injEq]
  constructor
  · rintro ⟨bs, r₁, ⟨hn, rfl, rfl⟩, rfl, rfl⟩
    exact ⟨_, r.rest.drop width, by simp, by simp [hn], rfl, rfl⟩
  · rintro ⟨bs, xs, hr, rfl, rfl, rfl⟩
    exact ⟨bs, _, ⟨by simp [hr], by simp [hr], rfl⟩, rfl, rfl⟩

end Protocyte
