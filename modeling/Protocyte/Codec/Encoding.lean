import Protocyte.Codec.Serialize

/-! The encoding of a message as the records it consists of, and that the size function counts
what the serializer writes. -/
namespace Protocyte
open Foundation.Computation Foundation.Base128 Foundation.LittleEndian Foundation.Wire

/-- The record of a scalar. -/
def scalarTree (t : ScalarType) (number : ℕ) (v : t.Value) : Tree :=
  match t.fixedWidth with
  | some 8 => .fixed64 number v.toNat
  | some _ => .fixed32 number v.toNat
  | none => .varint number (varintValue t v)

section
variable {Sub : ℕ → Type} (encoding : (id : ℕ) → Sub id → List UInt8)

def valueTree (number : ℕ) : (kind : ValueKind) → kind.Carrier Sub → Tree
  | .scalar t, v => scalarTree t number v
  | .string, v | .bytes, v => .bytes number v.val
  | .message id _, v => .bytes number (encoding id v)

def singularTree (number : ℕ) : (kind : SingularKind) → kind.Carrier Sub → Tree
  | .value kind, v => valueTree encoding number kind v
  | .byteArray .., v => .bytes number v.val

def entryTree (number : ℕ) (key : KeyKind) (value : ValueKind)
    (entry : key.Carrier Sub × value.Carrier Sub) : Tree :=
  .bytes number
    (encodeAll [valueTree encoding 1 key.value entry.1, valueTree encoding 2 value entry.2])

/-- The records of a field. -/
def FieldState.trees (number : ℕ) : (kind : FieldKind) → FieldState Sub kind → List Tree
  | .implicit kind _, v =>
    (FieldState.implicitValue kind v).toList.map (singularTree encoding number kind)
  | .explicit kind _ _, v => v.toList.map (singularTree encoding number kind)
  | .repeated (.scalar t) true _, items =>
    if items.val.isEmpty then [] else [.bytes number (items.val.flatMap (scalarBytes t))]
  | .repeated kind _ _, items => items.val.map (valueTree encoding number kind)
  | .map key value _, m => m.val.entries.map (entryTree encoding number key value)

variable {M : MessageModel}

def MessageData.trees (m : MessageData M Sub) : List Tree :=
  M.sorted.flatMap fun i => FieldState.trees encoding (M.number i) _ (m.fields i)

end

def Message.encoding (S : Schema) : (levels id : ℕ) → Message S levels id → List UInt8
  | 0, _, m => m.elim
  | levels + 1, _, m =>
    encodeAll (MessageData.trees (encoding S levels) m) ++ m.unknownFields.val

/-- The records of the fields of a message. -/
def Message.trees (S : Schema) : (levels id : ℕ) → Message S levels id → List Tree
  | 0, _, m => m.elim
  | levels + 1, _, m => MessageData.trees (encoding S levels) m

theorem scalarTree_encode (t : ScalarType) (n : ℕ) (v : t.Value) :
    (scalarTree t n v).encode = key n t.wireType.code ++ scalarBytes t v := by
  cases t <;> rfl

theorem scalarTree_leaf (t : ScalarType) (n : ℕ) (v : t.Value) :
    Leaf n t.wireType.code (scalarBytes t v) (scalarTree t n v) := by
  cases t with
  | double | fixed64 | sfixed64 => exact leaf_fixed64 n v.isLt
  | float | fixed32 | sfixed32 => exact leaf_fixed32 n v.isLt
  | int64 | uint64 | int32 | bool | uint32 | sint32 | sint64 | openEnum | closedEnum values =>
    exact .varint (varint_encode (varintValue_lt _ v))

theorem bytesTree_encode (n : ℕ) (payload : List UInt8) :
    (Tree.bytes n payload).encode = key n 2 ++ (encode payload.length ++ payload) := rfl

theorem lt_of_le_usizeMax {n : ℕ} (h : n ≤ usizeMax) : n < 2 ^ 64 :=
  Nat.lt_of_le_of_lt h (by decide)

/-- The size of a key does not depend on the wire type. -/
theorem length_key (n : ℕ) {c : ℕ} (h : c < 8) : (key n c).length = (key n 2).length := by
  unfold key
  by_cases hn : n < 16
  · rw [encode_of_lt (by omega), encode_of_lt (by omega)]
    rfl
  · have hc : (8 * n + c) / 128 = (8 * n + 2) / 128 := by omega
    rw [encode_of_ge (v := 8 * n + c) (by omega), encode_of_ge (v := 8 * n + 2) (by omega), hc]
    rfl

theorem tagSize_len {n : ℕ} (h : n ≤ maxNumber) : tagSize n .len = (key n 2).length := by
  unfold tagSize
  rw [if_neg (by decide), Tag.raw_eq]
  refine varintSize_eq ?_
  have hm : maxNumber = 2 ^ 29 - 1 := rfl
  simp only [WireType.code]
  omega

theorem checkedAdd_eq_ok {a b c : ℕ} (ha : a ≤ usizeMax) (hb : b ≤ usizeMax) :
    checkedAdd a b = .ok c ↔ a + b ≤ usizeMax ∧ c = a + b := by
  by_cases h : a + b ≤ usizeMax
  · rw [checkedAdd_of_le h]
    simp [h, eq_comm]
  · rw [checkedAdd_of_gt ha hb (by omega)]
    simp [h]

theorem checkedMul_eq_ok {a b c : ℕ} :
    checkedMul a b = .ok c ↔ a * b ≤ usizeMax ∧ c = a * b := by
  unfold checkedMul
  by_cases ha : a = 0
  · subst ha
    simp [eq_comm]
  · have hiff : b > usizeMax / a ↔ ¬ a * b ≤ usizeMax := by
      rw [gt_iff_lt, Nat.div_lt_iff_lt_mul (Nat.pos_of_ne_zero ha), Nat.not_le, Nat.mul_comm]
    by_cases h : a * b ≤ usizeMax
    · have hm : a * b % (usizeMax + 1) = a * b := Nat.mod_eq_of_lt (Nat.lt_succ_of_le h)
      rw [if_neg (fun hc => hiff.mp hc.2 h), hm]
      simp [h, eq_comm]
    · rw [if_pos ⟨ha, hiff.mpr h⟩]
      simp [h]

/-- `x` adds `n` to a total, when the sum is a `usize` and `valid` holds. -/
def Adds (x : ℕ → Except Error ℕ) (n : ℕ) (valid : Prop) : Prop :=
  ∀ total r, total ≤ usizeMax → (x total = .ok r ↔ valid ∧ total + n ≤ usizeMax ∧ r = total + n)

namespace Adds

theorem size (f : ℕ) {n : ℕ} (h : n ≤ usizeMax) :
    Adds (fun total => withFieldError f (addSize total n)) n True := by
  intro total r ht
  rw [withFieldError_eq_ok, addSize, checkedAdd_eq_ok ht h, true_and]

/-- A size that is computed first. -/
theorem computed {x : Except Error ℕ} {n : ℕ} {valid : Prop} (f : ℕ)
    (hx : ∀ r, x = .ok r ↔ valid ∧ n ≤ usizeMax ∧ r = n) :
    Adds (fun total => do
      let size ← withFieldError f x
      withFieldError f (addSize total size)) n valid := by
  intro total r ht
  simp only [except_bind_eq_ok, withFieldError_eq_ok, hx]
  constructor
  · rintro ⟨_, ⟨hv, hn, rfl⟩, hr⟩
    exact ⟨hv, (checkedAdd_eq_ok ht hn).mp hr⟩
  · rintro ⟨hv, hle, rfl⟩
    exact ⟨n, ⟨hv, by omega, rfl⟩, (checkedAdd_eq_ok ht (by omega)).mpr ⟨hle, rfl⟩⟩

theorem pure : Adds (fun total => Pure.pure total) 0 True := by
  intro total r ht
  have hp : (Pure.pure total : Except Error ℕ) = .ok r ↔ r = total := by
    change Except.ok total = .ok r ↔ _
    simp [eq_comm]
  rw [hp]
  constructor
  · rintro rfl
    exact ⟨trivial, ht, rfl⟩
  · rintro ⟨-, -, rfl⟩
    rfl

theorem foldlM {α : Type} {f : ℕ → α → Except Error ℕ} {n : α → ℕ} {valid : α → Prop}
    {l : List α} (h : ∀ a ∈ l, Adds (fun total => f total a) (n a) (valid a)) :
    Adds (fun total => l.foldlM f total) ((l.map n).sum) (∀ a ∈ l, valid a) := by
  induction l with
  | nil =>
    intro total r ht
    simpa using pure total r ht
  | cons a l ih =>
    intro total r ht
    simp only [List.foldlM_cons, except_bind_eq_ok, List.map_cons, List.sum_cons,
      List.mem_cons, forall_eq_or_imp]
    have ha := h a List.mem_cons_self
    have hl := ih fun b hb => h b (List.mem_cons_of_mem _ hb)
    constructor
    · rintro ⟨mid, hmid, hr⟩
      obtain ⟨hva, hle, rfl⟩ := (ha total mid ht).mp hmid
      obtain ⟨hvl, hle', rfl⟩ := (hl _ r hle).mp hr
      exact ⟨⟨hva, hvl⟩, by omega, by omega⟩
    · rintro ⟨⟨hva, hvl⟩, hle, rfl⟩
      exact ⟨total + n a, (ha _ _ ht).mpr ⟨hva, by omega, rfl⟩,
        (hl _ _ (by omega)).mpr ⟨hvl, by omega, by omega⟩⟩

theorem congr {x : ℕ → Except Error ℕ} {m n : ℕ} {valid valid' : Prop} (h : Adds x m valid)
    (hn : m = n) (hv : valid ↔ valid') : Adds x n valid' := by
  subst hn
  intro total r ht
  rw [h total r ht, hv]

/-- From zero. -/
theorem zero {x : ℕ → Except Error ℕ} {n : ℕ} {valid : Prop} (h : Adds x n valid) (r : ℕ) :
    x 0 = .ok r ↔ valid ∧ n ≤ usizeMax ∧ r = n := by
  simpa only [Nat.zero_add] using h 0 r (Nat.zero_le _)

end Adds

theorem lengthDelimitedFieldSize_eq_ok {n payload r : ℕ} (hn : n ≤ maxNumber)
    (hp : payload ≤ usizeMax) : lengthDelimitedFieldSize n payload = .ok r ↔
      (key n 2).length + ((encode payload).length + payload) ≤ usizeMax ∧
        r = (key n 2).length + ((encode payload).length + payload) := by
  have hk : (key n 2).length ≤ 10 := by
    have hm : maxNumber = 2 ^ 29 - 1 := rfl
    exact encode_length_le 9 (by omega)
  have hv : (encode payload).length ≤ 10 :=
    encode_length_le 9 (Nat.lt_of_lt_of_le (lt_of_le_usizeMax hp) (by decide))
  have hm : usizeMax = 2 ^ 64 - 1 := rfl
  have hsize := varintSize_eq (lt_of_le_usizeMax hp)
  unfold lengthDelimitedFieldSize
  simp only [except_bind_eq_ok, withFieldError_eq_ok, tagSize_len hn, hsize]
  rw [checkedAdd_of_le (by omega)]
  constructor
  · rintro ⟨_, ⟨⟩, hr⟩
    obtain ⟨hle, rfl⟩ := (checkedAdd_eq_ok (by omega) hp).mp hr
    exact ⟨by omega, by omega⟩
  · rintro ⟨hle, rfl⟩
    exact ⟨_, rfl, (checkedAdd_eq_ok (by omega) hp).mpr ⟨by omega, by omega⟩⟩

/-- The size of a length-delimited record, whose payload is measured first. -/
theorem lengthDelimited_measured {x : Except Error ℕ} {n : ℕ} {payload : List UInt8} {valid : Prop}
    (hn : n ≤ maxNumber) (hx : ∀ r, x = .ok r ↔ valid ∧ payload.length ≤ usizeMax ∧ r = payload.length)
    (r : ℕ) : (do let size ← x; lengthDelimitedFieldSize n size) = .ok r ↔
      valid ∧ (Tree.bytes n payload).encode.length ≤ usizeMax ∧
        r = (Tree.bytes n payload).encode.length := by
  simp only [except_bind_eq_ok, hx, bytesTree_encode, List.length_append]
  constructor
  · rintro ⟨_, ⟨hv, hp, rfl⟩, hr⟩
    exact ⟨hv, (lengthDelimitedFieldSize_eq_ok hn hp).mp hr⟩
  · rintro ⟨hv, hle, rfl⟩
    exact ⟨_, ⟨hv, by omega, rfl⟩,
      (lengthDelimitedFieldSize_eq_ok hn (by omega)).mpr ⟨hle, rfl⟩⟩

end Protocyte
