import Protocyte.Codec.Encoding

/-! The size function and the serializer agree: by the kind of a field, and by the nesting of
messages. Sizes are exact up to the range of `usize`. -/
namespace Protocyte
open Foundation.Computation Foundation.Base128 Foundation.LittleEndian Foundation.Wire

theorem forM_eq_ok {α : Type} {f : α → Except Error Unit} {l : List α} :
    l.forM f = .ok () ↔ ∀ a ∈ l, f a = .ok () := by
  induction l with
  | nil => simp [pure, Except.pure]
  | cons a l ih =>
    rw [List.forM_eq_forM] at ih ⊢
    rw [List.forM_cons, except_bind_eq_ok, List.forall_mem_cons, ← ih]
    exact ⟨fun ⟨_, ha, hl⟩ => ⟨ha, hl⟩, fun ⟨ha, hl⟩ => ⟨(), ha, hl⟩⟩

section
variable {Sub : ℕ → Type}

/-- What holds of a value that is a message. -/
def ValueKind.Nested (P : (id : ℕ) → Sub id → Prop) : (kind : ValueKind) → kind.Carrier Sub → Prop
  | message id _, v => P id v
  | scalar _, _ | string, _ | bytes, _ => True

def SingularKind.Nested (P : (id : ℕ) → Sub id → Prop) :
    (kind : SingularKind) → kind.Carrier Sub → Prop
  | value kind, v => kind.Nested P v
  | byteArray .., _ => True

namespace FieldState

/-- `P` holds of every value of a field. -/
def All (P : (kind : ValueKind) → kind.Carrier Sub → Prop) :
    (kind : FieldKind) → FieldState Sub kind → Prop
  | .implicit (.value kind) _, v => P kind v
  | .implicit (.byteArray ..) _, _ => True
  | .explicit (.value kind) .., v => ∀ w ∈ v, P kind w
  | .explicit (.byteArray ..) .., _ => True
  | .repeated kind .., items => ∀ v ∈ items.val, P kind v
  | .map key value _, m => ∀ e ∈ m.val.entries, P key.value e.1 ∧ P value e.2

theorem forValues_eq_ok {visit : (kind : ValueKind) → kind.Carrier Sub → Except Error Unit}
    (kind : FieldKind) (v : FieldState Sub kind) :
    forValues visit kind v = .ok () ↔ All (fun k w => visit k w = .ok ()) kind v := by
  match kind, v with
  | .implicit (.value kind) _, v => exact Iff.rfl
  | .implicit (.byteArray ..) _, _ => exact iff_true_intro rfl
  | .explicit (.value kind) .., some v =>
    exact ⟨fun h w hw => by cases hw; exact h, fun h => h v rfl⟩
  | .explicit (.value _) .., none => exact ⟨fun _ w hw => (by cases hw), fun _ => rfl⟩
  | .explicit (.byteArray ..) .., _ => exact iff_true_intro rfl
  | .repeated kind .., items => exact forM_eq_ok
  | .map key value _, m =>
    refine forM_eq_ok.trans (forall₂_congr fun e _ => ?_)
    rw [except_bind_eq_ok]
    exact ⟨fun ⟨_, ha, hl⟩ => ⟨ha, hl⟩, fun ⟨ha, hl⟩ => ⟨(), ha, hl⟩⟩

theorem All.mono {P Q : (kind : ValueKind) → kind.Carrier Sub → Prop}
    (h : ∀ k v, P k v → Q k v) (kind : FieldKind) (v : FieldState Sub kind) (hv : All P kind v) :
    All Q kind v := by
  match kind, v, hv with
  | .implicit (.value kind) _, v, hv => exact h _ _ hv
  | .implicit (.byteArray ..) _, _, _ => trivial
  | .explicit (.value kind) .., v, hv => exact fun w hw => h _ _ (hv w hw)
  | .explicit (.byteArray ..) .., _, _ => trivial
  | .repeated kind .., items, hv => exact fun v hm => h _ _ (hv v hm)
  | .map key value _, m, hv => exact fun e he => ⟨h _ _ (hv e he).1, h _ _ (hv e he).2⟩

end FieldState

theorem validateNested_eq_ok {validate : (id : ℕ) → Sub id → Except Error Unit} {n : ℕ}
    (kind : ValueKind) (v : kind.Carrier Sub) :
    kind.validateNested validate n v = .ok () ↔
      kind.Nested (fun id w => validate id w = .ok ()) v := by
  match kind, v with
  | .message id _, v => exact withFieldError_eq_ok
  | .scalar _, _ | .string, _ | .bytes, _ => exact iff_true_intro rfl

theorem encodeAll_map_length {α : Type} (f : α → Tree) (l : List α) :
    (encodeAll (l.map f)).length = (l.map fun a => (f a).encode.length).sum := by
  induction l with
  | nil => simp
  | cons a l ih => simp [encodeAll_cons, ih]

theorem encodeAll_flatMap_length {α : Type} (f : α → List Tree) (l : List α) :
    (encodeAll (l.flatMap f)).length = (l.map fun a => (encodeAll (f a)).length).sum := by
  induction l with
  | nil => simp
  | cons a l ih => simp [encodeAll_append, ih]

/-- The nested size function measures the encoding of the messages it validates. -/
def Measures (validate : (id : ℕ) → Sub id → Except Error Unit)
    (encodedSize : (id : ℕ) → Sub id → Except Error ℕ)
    (encoding : (id : ℕ) → Sub id → List UInt8) : Prop :=
  ∀ id v r, encodedSize id v = .ok r ↔
    validate id v = .ok () ∧ (encoding id v).length ≤ usizeMax ∧ r = (encoding id v).length

/-- The nested messages of a field are valid. -/
abbrev FieldState.NestedValid (validate : (id : ℕ) → Sub id → Except Error Unit)
    (kind : FieldKind) (v : FieldState Sub kind) : Prop :=
  FieldState.All (fun k w => k.Nested (fun id u => validate id u = .ok ()) w) kind v

variable {validate : (id : ℕ) → Sub id → Except Error Unit}
variable {encodedSize : (id : ℕ) → Sub id → Except Error ℕ}
variable {encoding : (id : ℕ) → Sub id → List UInt8}

private theorem measured_bytes {n p : ℕ} (hn : n ≤ maxNumber) (hp : p ≤ usizeMax)
    {payload : List UInt8} (he : payload.length = p) (r : ℕ) :
    lengthDelimitedFieldSize n p = .ok r ↔ True ∧
      (Tree.bytes n payload).encode.length ≤ usizeMax ∧
        r = (Tree.bytes n payload).encode.length := by
  subst he
  rw [lengthDelimitedFieldSize_eq_ok hn hp, bytesTree_encode, true_and]
  simp only [List.length_append]

theorem adds_value (hs : Measures validate encodedSize encoding) {n : ℕ} (hn : n ≤ maxNumber)
    (f : ℕ) (kind : ValueKind) (v : kind.Carrier Sub) :
    Adds (fun total => addValueSize encodedSize n f total kind v)
      (valueTree encoding n kind v).encode.length
      (kind.Nested (fun id w => validate id w = .ok ()) v) := by
  match kind, v with
  | .scalar t, v =>
    have hlen : tagSize n .len + scalarSize t v = (scalarTree t n v).encode.length := by
      rw [scalarTree_encode, List.length_append, tagSize_len hn, scalarSize_eq,
        length_key n t.wireType.code_lt]
    have hle : tagSize n .len + scalarSize t v ≤ usizeMax := by
      have hk : (key n 2).length ≤ 10 := by
        have hm : maxNumber = 2 ^ 29 - 1 := rfl
        exact encode_length_le 9 (by omega)
      have hb : (scalarBytes t v).length ≤ 10 := by
        unfold scalarBytes
        cases hf : t.fixedWidth with
        | some w => cases t <;> cases hf <;> simp
        | none =>
          exact encode_length_le 9 (Nat.lt_of_lt_of_le (varintValue_lt t v) (by decide))
      have hm : usizeMax = 2 ^ 64 - 1 := rfl
      rw [tagSize_len hn, scalarSize_eq]
      omega
    exact (Adds.size f hle).congr hlen Iff.rfl
  | .string, v => exact Adds.computed f (measured_bytes hn v.2 rfl)
  | .bytes, v => exact Adds.computed f (measured_bytes hn v.2 rfl)
  | .message id _, v =>
    refine Adds.computed f fun r => ?_
    have hm := lengthDelimited_measured hn (hs id v) r
    simp only [messageFieldSize, except_bind_eq_ok, withFieldError_eq_ok] at hm ⊢
    exact hm

theorem adds_singular (hs : Measures validate encodedSize encoding) {n : ℕ} (hn : n ≤ maxNumber)
    (kind : SingularKind) (v : kind.Carrier Sub) :
    Adds (fun total => addSingularSize encodedSize n total kind v)
      (singularTree encoding n kind v).encode.length
      (kind.Nested (fun id w => validate id w = .ok ()) v) := by
  match kind, v with
  | .value kind, v => exact adds_value hs hn n kind v
  | .byteArray max fixed, v =>
    exact Adds.computed n (measured_bytes hn (Nat.le_trans v.2.1 max.2) rfl)

theorem packedSize_eq_ok (t : ScalarType) (n : ℕ) (items : List t.Value) (r : ℕ) :
    packedSize t n items = .ok r ↔ True ∧ (items.flatMap (scalarBytes t)).length ≤ usizeMax ∧
      r = (items.flatMap (scalarBytes t)).length := by
  rw [true_and, List.length_flatMap]
  unfold packedSize
  cases hw : t.fixedWidth with
  | some width =>
    have hlen : ∀ v : t.Value, (scalarBytes t v).length = width := by
      intro v
      simp [scalarBytes, hw]
    simp only [hlen, withFieldError_eq_ok, checkedMul_eq_ok, List.map_const',
      List.sum_replicate_nat]
  | none =>
    have hb : ∀ v ∈ items, Adds (fun total => withFieldError n (addSize total (scalarSize t v)))
        (scalarBytes t v).length True := by
      intro v _
      have hle : (scalarBytes t v).length ≤ usizeMax := by
        unfold scalarBytes
        rw [hw]
        exact Nat.le_trans (encode_length_le 9 (Nat.lt_of_lt_of_le (varintValue_lt t v) (by decide)))
          (by decide)
      exact (Adds.size n (scalarSize_eq t v ▸ hle)).congr (scalarSize_eq t v) Iff.rfl
    refine ((Adds.foldlM hb).zero r).trans ?_
    simp

theorem entryPayloadSize_eq_ok (hs : Measures validate encodedSize encoding) (n : ℕ)
    (key : KeyKind) (value : ValueKind) (e : key.Carrier Sub × value.Carrier Sub) (r : ℕ) :
    entryPayloadSize encodedSize n key value e = .ok r ↔
      (key.value.Nested (fun id w => validate id w = .ok ()) e.1 ∧
        value.Nested (fun id w => validate id w = .ok ()) e.2) ∧
      (encodeAll [valueTree encoding 1 key.value e.1,
        valueTree encoding 2 value e.2]).length ≤ usizeMax ∧
      r = (encodeAll [valueTree encoding 1 key.value e.1,
        valueTree encoding 2 value e.2]).length := by
  have hk := adds_value hs (n := 1) (by decide) n key.value e.1
  have hv := adds_value hs (n := 2) (by decide) n value e.2
  simp only [entryPayloadSize, except_bind_eq_ok, encodeAll_cons, encodeAll_nil,
    List.length_append, List.length_nil, Nat.add_zero]
  constructor
  · rintro ⟨mid, hmid, hr⟩
    obtain ⟨hvk, hle, rfl⟩ := (hk.zero mid).mp hmid
    obtain ⟨hvv, hle', rfl⟩ := (hv _ r hle).mp hr
    exact ⟨⟨hvk, hvv⟩, hle', rfl⟩
  · rintro ⟨⟨hvk, hvv⟩, hle, rfl⟩
    exact ⟨_, (hk.zero _).mpr ⟨hvk, by omega, rfl⟩, (hv _ _ (by omega)).mpr ⟨hvv, hle, rfl⟩⟩

theorem implicitValue_eq (kind : SingularKind) (v : kind.Carrier Sub) :
    FieldState.implicitValue kind v = some v ∨ FieldState.implicitValue kind v = none := by
  unfold FieldState.implicitValue
  split
  · exact Or.inl rfl
  · exact Or.inr rfl

/-- A field without presence holds no message. -/
theorem implicit_nested {P : (id : ℕ) → Sub id → Prop} (kind : SingularKind)
    (hd : kind.hasDefault = true) (v : kind.Carrier Sub) : kind.Nested P v := by
  match kind, hd, v with
  | .value (.scalar t), _, v => trivial
  | .value .string, _, v | .value .bytes, _, v => trivial
  | .byteArray _ _, _, v => trivial

theorem encodeAll_singleton_length (t : Tree) : (encodeAll [t]).length = t.encode.length := by
  rw [encodeAll_singleton]

theorem adds_field (hs : Measures validate encodedSize encoding) {n : ℕ} (hn : n ≤ maxNumber)
    (kind : FieldKind) (v : FieldState Sub kind) :
    Adds (fun total => addFieldSize encodedSize n total kind v)
      (encodeAll (FieldState.trees encoding n kind v)).length
      (FieldState.NestedValid validate kind v) := by
  match kind, v with
  | .implicit kind hd, v =>
    have hvalid : FieldState.NestedValid validate (.implicit kind hd) v := by
      match kind, hd, v with
      | .value kind, hd, v => exact implicit_nested (.value kind) hd v
      | .byteArray _ _, _, v => trivial
    unfold addFieldSize FieldState.trees
    rcases implicitValue_eq kind v with h | h
    · simp only [h]
      refine (adds_singular hs hn kind v).congr (encodeAll_singleton_length _).symm
        (iff_of_true (implicit_nested kind hd v) hvalid)
    · simp only [h, Option.toList_none, List.map_nil, encodeAll_nil]
      exact Adds.pure.congr rfl (iff_of_true trivial hvalid)
  | .explicit (.value kind) req oneof, some v =>
    refine (adds_singular hs hn (.value kind) v).congr (by simp [FieldState.trees, encodeAll_singleton])
      ⟨fun h w hw => ?_, fun h => h v rfl⟩
    cases hw
    exact h
  | .explicit (.byteArray max fixed) req oneof, some v =>
    exact (adds_singular hs hn (.byteArray max fixed) v).congr
      (by simp [FieldState.trees, encodeAll_singleton]) (iff_of_true trivial trivial)
  | .explicit (.value kind) req oneof, none =>
    exact Adds.pure.congr (by simp [FieldState.trees]) (iff_of_true trivial fun w hw => by cases hw)
  | .explicit (.byteArray ..) req oneof, none =>
    exact Adds.pure.congr (by simp [FieldState.trees]) (iff_of_true trivial trivial)
  | .repeated (.scalar t) true st, items =>
    have hvalid : FieldState.NestedValid validate (.repeated (.scalar t) true st) items :=
      fun w hw => trivial
    unfold addFieldSize FieldState.trees
    by_cases he : items.val.isEmpty = true
    · simp only [he, if_true, encodeAll_nil]
      exact Adds.pure.congr rfl (iff_of_true trivial hvalid)
    · simp only [he, Bool.false_eq_true, if_false, encodeAll_singleton]
      have hc := Adds.computed n (lengthDelimited_measured hn (packedSize_eq_ok t n items.val))
      refine Adds.congr ?_ rfl (iff_of_true trivial hvalid)
      intro total r ht
      refine Iff.trans ?_ (hc total r ht)
      simp only [except_bind_eq_ok, withFieldError_eq_ok]
      constructor
      · rintro ⟨p, hp, s, hs', hr⟩
        exact ⟨s, ⟨p, hp, hs'⟩, hr⟩
      · rintro ⟨s, ⟨p, hp, hs'⟩, hr⟩
        exact ⟨p, hp, s, hs', hr⟩
  | .repeated (.scalar t) false st, items =>
    exact (Adds.foldlM fun v _ => adds_value hs hn n (.scalar t) v).congr
      (encodeAll_map_length _ _).symm Iff.rfl
  | .repeated .string packed st, items =>
    exact (Adds.foldlM fun v _ => adds_value hs hn n .string v).congr
      (encodeAll_map_length _ _).symm Iff.rfl
  | .repeated .bytes packed st, items =>
    exact (Adds.foldlM fun v _ => adds_value hs hn n .bytes v).congr
      (encodeAll_map_length _ _).symm Iff.rfl
  | .repeated (.message id boxed) packed st, items =>
    exact (Adds.foldlM fun v _ => adds_value hs hn n (.message id boxed) v).congr
      (encodeAll_map_length _ _).symm Iff.rfl
  | .map key value mb, m =>
    refine Adds.congr (Adds.foldlM fun e _ => ?_) (encodeAll_map_length _ _).symm Iff.rfl
    have hc := Adds.computed n (lengthDelimited_measured hn (entryPayloadSize_eq_ok hs n key value e))
    intro total r ht
    refine Iff.trans ?_ (hc total r ht)
    simp only [except_bind_eq_ok, withFieldError_eq_ok]
    constructor
    · rintro ⟨p, hp, s, hs', hr⟩
      exact ⟨s, ⟨p, hp, hs'⟩, hr⟩
    · rintro ⟨s, ⟨p, hp, hs'⟩, hr⟩
      exact ⟨p, hp, s, hs', hr⟩

end

namespace MessageData

variable {M : MessageModel} {Sub : ℕ → Type}
variable {nestedValidate : (id : ℕ) → Sub id → Except Error Unit}
variable {nestedSize : (id : ℕ) → Sub id → Except Error ℕ}
variable {nestedEncoding : (id : ℕ) → Sub id → List UInt8}

theorem validate_eq_ok {m : MessageData M Sub} : m.validate nestedValidate = .ok () ↔
    (∀ i, FieldState.validateFixedArray (M.number i) _ (m.fields i) = .ok ()) ∧
    (∀ i, FieldState.All (fun k v => k.validateClosedEnum (M.number i) v = .ok ()) _ (m.fields i)) ∧
    (∀ i, FieldState.validateRequired (M.number i) _ (m.fields i) = .ok ()) ∧
    (∀ i, FieldState.All (fun k v => k.validateString (M.number i) v = .ok ()) _ (m.fields i)) ∧
    (∀ i, FieldState.NestedValid nestedValidate _ (m.fields i)) := by
  have hall : ∀ f : M.Index → Except Error Unit,
      M.sorted.forM f = .ok () ↔ ∀ i, f i = .ok () := fun f =>
    forM_eq_ok.trans ⟨fun h i => h i (M.mem_sorted i), fun h i _ => h i⟩
  have hbind : ∀ (x : Except Error Unit) (y : Except Error Unit),
      (x >>= fun _ => y) = .ok () ↔ x = .ok () ∧ y = .ok () := by
    intro x y
    rw [except_bind_eq_ok]
    exact ⟨fun ⟨_, hx, hy⟩ => ⟨hx, hy⟩, fun ⟨hx, hy⟩ => ⟨(), hx, hy⟩⟩
  unfold validate
  simp only [hbind, hall, FieldState.forValues_eq_ok, validateNested_eq_ok]

theorem encodedSize_eq_ok (hs : Measures nestedValidate nestedSize nestedEncoding)
    (m : MessageData M Sub) (r : ℕ) : m.encodedSize nestedValidate nestedSize = .ok r ↔
      m.validate nestedValidate = .ok () ∧
      (encodeAll (m.trees nestedEncoding) ++ m.unknownFields.val).length ≤ usizeMax ∧
      r = (encodeAll (m.trees nestedEncoding) ++ m.unknownFields.val).length := by
  have hsum : Adds (fun total => M.sorted.foldlM
      (fun total i => addFieldSize nestedSize (M.number i) total _ (m.fields i)) total)
      (encodeAll (m.trees nestedEncoding)).length
      (∀ i ∈ M.sorted, FieldState.NestedValid nestedValidate _ (m.fields i)) :=
    (Adds.foldlM fun i _ => adds_field hs (M.number_le i) (M.kind i) (m.fields i)).congr
      (encodeAll_flatMap_length _ _).symm Iff.rfl
  simp only [encodedSize, except_bind_eq_ok, List.length_append]
  constructor
  · rintro ⟨_, hv, total, ht, hr⟩
    obtain ⟨-, hle, rfl⟩ := (hsum.zero total).mp ht
    exact ⟨hv, (checkedAdd_eq_ok hle m.unknownFields.2).mp hr⟩
  · rintro ⟨hv, hle, rfl⟩
    have hn := (validate_eq_ok.mp hv).2.2.2.2
    refine ⟨(), hv, _, (hsum.zero _).mpr ⟨fun i _ => hn i, by omega, rfl⟩, ?_⟩
    exact (checkedAdd_eq_ok (by omega) m.unknownFields.2).mpr ⟨hle, rfl⟩

end MessageData

/-- At every level, the size is the length of the encoding of a valid message. -/
theorem Message.measures (S : Schema) (levels : ℕ) :
    Measures (Message.validate S levels) (Message.encodedSize S levels)
      (Message.encoding S levels) := by
  induction levels with
  | zero => exact fun id v => v.elim
  | succ levels ih => exact fun id m r => MessageData.encodedSize_eq_ok ih m r

section
variable {σ : Type} [Writer σ] [LawfulWriter σ]

theorem Writes.forM {α : Type} {f : α → EStateM Error σ Unit} {g : α → List UInt8} {l : List α}
    (h : ∀ a ∈ l, Writes (f a) (g a)) : Writes (l.forM f) (l.flatMap g) := by
  induction l with
  | nil => exact .nil
  | cons a l ih =>
    rw [List.flatMap_cons]
    exact (h a List.mem_cons_self).bind (ih fun b hb => h b (List.mem_cons_of_mem _ hb))

theorem Writes.congr {x : EStateM Error σ Unit} {bs cs : List UInt8} (h : Writes x bs)
    (he : bs = cs) : Writes x cs := he ▸ h

theorem encodeAll_map {α : Type} (f : α → Tree) (l : List α) :
    encodeAll (l.map f) = l.flatMap fun a => (f a).encode := by
  induction l with
  | nil => simp
  | cons a l ih => simp [encodeAll_cons, ih]

theorem encodeAll_flatMap {α : Type} (f : α → List Tree) (l : List α) :
    encodeAll (l.flatMap f) = l.flatMap fun a => encodeAll (f a) := by
  induction l with
  | nil => simp
  | cons a l ih => simp [encodeAll_append, ih]

/-- No part is longer than the whole. -/
theorem length_le_flatMap {α : Type} {g : α → List UInt8} {l : List α} {a : α} (h : a ∈ l) :
    (g a).length ≤ (l.flatMap g).length := by
  obtain ⟨front, back, rfl⟩ := List.append_of_mem h
  simp only [List.flatMap_append, List.flatMap_cons, List.length_append]
  omega

variable {Sub : ℕ → Type}
variable {validate : (id : ℕ) → Sub id → Except Error Unit}
variable {encodedSize : (id : ℕ) → Sub id → Except Error ℕ}
variable {encoding : (id : ℕ) → Sub id → List UInt8}
variable {serialize : (id : ℕ) → Sub id → EStateM Error σ Unit}

/-- The nested serializer writes the encoding of the messages that have a size. -/
def Serializes (validate : (id : ℕ) → Sub id → Except Error Unit)
    (encoding : (id : ℕ) → Sub id → List UInt8)
    (serialize : (id : ℕ) → Sub id → EStateM Error σ Unit) : Prop :=
  ∀ id v, validate id v = .ok () → (encoding id v).length ≤ usizeMax →
    Writes (serialize id v) (encoding id v)

theorem writes_bytesField {n : ℕ} (hn : n ≤ maxNumber) {view : List UInt8}
    (hv : view.length ≤ usizeMax) :
    Writes (writeBytesField n view : EStateM Error σ Unit) (Tree.bytes n view).encode :=
  (writes_tag .len hn).bind
    (((writes_varint (lt_of_le_usizeMax hv)).bind (.bytes view)).withField n)

private theorem payload_le {n : ℕ} {payload : List UInt8}
    (h : (Tree.bytes n payload).encode.length ≤ usizeMax) : payload.length ≤ usizeMax := by
  rw [bytesTree_encode, List.length_append, List.length_append] at h
  omega

theorem writes_value (hs : Measures validate encodedSize encoding)
    (hw : Serializes validate encoding serialize) {n : ℕ} (hn : n ≤ maxNumber) (f : ℕ)
    (kind : ValueKind) (v : kind.Carrier Sub)
    (hv : kind.Nested (fun id w => validate id w = .ok ()) v)
    (hle : (valueTree encoding n kind v).encode.length ≤ usizeMax) :
    Writes (writeValue encodedSize serialize n f kind v) (valueTree encoding n kind v).encode := by
  match kind, v, hv, hle with
  | .scalar t, v, _, _ =>
    exact ((writes_scalarField t hn v).withField f).congr (scalarTree_encode t n v).symm
  | .string, v, _, _ | .bytes, v, _, _ => exact (writes_bytesField hn v.2).withField f
  | .message id _, v, hv, hle =>
    have hp : (encoding id v).length ≤ usizeMax := payload_le hle
    have hsize : withFieldError n (encodedSize id v) = .ok (encoding id v).length :=
      withFieldError_eq_ok.mpr ((hs id v _).mpr ⟨hv, hp, rfl⟩)
    refine Writes.withField f ?_
    unfold writeMessageField
    simp only [ofExcept_bind hsize]
    exact (writes_tag .len hn).bind (((writes_varint (lt_of_le_usizeMax hp)).withField n).bind
      ((hw id v hv hp).withField n))

theorem writes_singular (hs : Measures validate encodedSize encoding)
    (hw : Serializes validate encoding serialize) {n : ℕ} (hn : n ≤ maxNumber)
    (kind : SingularKind) (v : kind.Carrier Sub)
    (hv : kind.Nested (fun id w => validate id w = .ok ()) v)
    (hle : (singularTree encoding n kind v).encode.length ≤ usizeMax) :
    Writes (writeSingular encodedSize serialize n kind v)
      (singularTree encoding n kind v).encode := by
  match kind, v, hv, hle with
  | .value kind, v, hv, hle => exact writes_value hs hw hn n kind v hv hle
  | .byteArray max fixed, v, _, _ =>
    exact (writes_bytesField hn (Nat.le_trans v.2.1 max.2)).withField n

theorem scalarBytes_bulk {t : ScalarType} {w : ℕ} (h : t.bulkWidth = some w) (v : t.Value) :
    scalarBytes t v = toBytes w v.toNat := by
  cases t <;> cases h <;> rfl

theorem writes_packedValues {t : ScalarType} {w : ℕ} (h : t.bulkWidth = some w)
    {items : List t.Value} (hle : (items.flatMap (scalarBytes t)).length ≤ usizeMax) :
    Writes (writeFixedWidthPackedValues t w items : EStateM Error σ Unit)
      (items.flatMap (scalarBytes t)) := by
  have hbytes : (items.flatMap fun v => toBytes w v.toNat) = items.flatMap (scalarBytes t) :=
    List.flatMap_congr fun v _ => (scalarBytes_bulk h v).symm
  have hmul : checkedMul items.length w = .ok (items.length * w) := by
    refine checkedMul_eq_ok.mpr ⟨?_, rfl⟩
    rw [← hbytes, List.length_flatMap] at hle
    simpa using hle
  intro s
  simp only [writeFixedWidthPackedValues, hmul, hbytes]
  by_cases hzero : items.length = 0
  · rw [if_pos hzero, List.length_eq_zero_iff.mp hzero]
    exact Writes.nil s
  rw [if_neg hzero]
  split
  · exact Writes.bytes _ s
  · exact Writes.forM (fun v _ => writes_scalar t v) s

theorem writes_packed (t : ScalarType) {n : ℕ} (hn : n ≤ maxNumber) {items : List t.Value}
    (hle : (items.flatMap (scalarBytes t)).length ≤ usizeMax) :
    Writes (writePacked t n items : EStateM Error σ Unit)
      (Tree.bytes n (items.flatMap (scalarBytes t))).encode := by
  have hsize := (packedSize_eq_ok t n items _).mpr ⟨trivial, hle, rfl⟩
  unfold writePacked
  rw [ofExcept_bind hsize]
  refine ((writes_tag .len hn).withField n).bind
    (((writes_varint (lt_of_le_usizeMax hle)).withField n).bind ?_)
  cases hb : t.bulkWidth with
  | some w => exact (writes_packedValues hb hle).withField n
  | none => exact Writes.forM fun v _ => (writes_scalar t v).withField n

theorem writes_entry (hs : Measures validate encodedSize encoding)
    (hw : Serializes validate encoding serialize) {n : ℕ} (hn : n ≤ maxNumber) (key : KeyKind)
    (value : ValueKind) (e : key.Carrier Sub × value.Carrier Sub)
    (hk : key.value.Nested (fun id w => validate id w = .ok ()) e.1)
    (hv : value.Nested (fun id w => validate id w = .ok ()) e.2)
    (hle : (entryTree encoding n key value e).encode.length ≤ usizeMax) :
    Writes (writeEntry encodedSize serialize n key value e)
      (entryTree encoding n key value e).encode := by
  have hp := payload_le hle
  have hsize := (entryPayloadSize_eq_ok hs n key value e _).mpr ⟨⟨hk, hv⟩, hp, rfl⟩
  unfold writeEntry
  rw [ofExcept_bind hsize]
  simp only [encodeAll_cons, encodeAll_nil, List.append_nil, List.length_append] at hp
  refine ((writes_tag .len hn).withField n).bind
    (((writes_varint (lt_of_le_usizeMax (payload_le hle))).withField n).bind ?_)
  refine Writes.congr ((writes_value hs hw (by decide) n key.value e.1 hk (by omega)).bind
    (writes_value hs hw (by decide) n value e.2 hv (by omega))) ?_
  simp [encodeAll_cons]

theorem writes_field (hs : Measures validate encodedSize encoding)
    (hw : Serializes validate encoding serialize) {n : ℕ} (hn : n ≤ maxNumber) (kind : FieldKind)
    (v : FieldState Sub kind) (hv : FieldState.NestedValid validate kind v)
    (hle : (encodeAll (FieldState.trees encoding n kind v)).length ≤ usizeMax) :
    Writes (serializeField encodedSize serialize n kind v)
      (encodeAll (FieldState.trees encoding n kind v)) := by
  match kind, v, hv, hle with
  | .implicit kind hd, v, hv, hle =>
    unfold serializeField
    unfold FieldState.trees at hle ⊢
    rcases implicitValue_eq kind v with h | h
    · simp only [h] at hle ⊢
      refine (writes_singular hs hw hn kind v ?_ ((encodeAll_singleton_length _).symm.trans_le hle)).congr
        (encodeAll_singleton _).symm
      exact implicit_nested kind hd v
    · simp only [h]
      exact Writes.nil.congr (by simp)
  | .explicit kind req oneof, some v, hv, hle =>
    simp only [FieldState.trees, Option.toList_some, List.map_cons, List.map_nil,
      encodeAll_singleton] at hle ⊢
    refine writes_singular hs hw hn kind v ?_ hle
    match kind, v, hv with
    | .value kind, v, hv => exact hv v rfl
    | .byteArray .., _, _ => trivial
  | .explicit kind req oneof, none, _, _ => exact Writes.nil.congr (by simp [FieldState.trees])
  | .repeated (.scalar t) true st, items, _, hle =>
    unfold serializeField
    unfold FieldState.trees at hle ⊢
    by_cases he : items.val.isEmpty = true
    · simp only [he, if_true]
      exact Writes.nil.congr (by simp)
    · simp only [he, Bool.false_eq_true, if_false, encodeAll_singleton] at hle ⊢
      exact writes_packed t hn (payload_le hle)
  | .repeated (.scalar t) false st, items, hv, hle => exact writes_each hv hle
  | .repeated .string packed st, items, hv, hle => exact writes_each hv hle
  | .repeated .bytes packed st, items, hv, hle => exact writes_each hv hle
  | .repeated (.message id boxed) packed st, items, hv, hle => exact writes_each hv hle
  | .map key value mb, m, hv, hle =>
    simp only [FieldState.trees, encodeAll_map] at hle ⊢
    refine Writes.forM fun e he => ?_
    exact writes_entry hs hw hn key value e (hv e he).1 (hv e he).2
      (Nat.le_trans (length_le_flatMap (g := fun e => (entryTree encoding n key value e).encode) he)
        hle)
where
  writes_each {kind : ValueKind} {l : List (kind.Carrier Sub)}
      (hv : ∀ v ∈ l, kind.Nested (fun id w => validate id w = .ok ()) v)
      (hle : (encodeAll (l.map (valueTree encoding n kind))).length ≤ usizeMax) :
      Writes (l.forM (writeValue encodedSize serialize n n kind))
        (encodeAll (l.map (valueTree encoding n kind))) := by
    rw [encodeAll_map] at hle ⊢
    exact Writes.forM fun v hm => writes_value hs hw hn n kind v (hv v hm)
      (Nat.le_trans (length_le_flatMap (g := fun v => (valueTree encoding n kind v).encode) hm) hle)

theorem MessageData.writes_serialize {M : MessageModel}
    (hs : Measures validate encodedSize encoding) (hw : Serializes validate encoding serialize)
    (m : MessageData M Sub) (hv : m.validate validate = .ok ())
    (hle : (encodeAll (m.trees encoding) ++ m.unknownFields.val).length ≤ usizeMax) :
    Writes (m.serialize validate encodedSize serialize)
      (encodeAll (m.trees encoding) ++ m.unknownFields.val) := by
  have hn := (validate_eq_ok.mp hv).2.2.2.2
  rw [List.length_append] at hle
  unfold MessageData.trees at hle ⊢
  rw [encodeAll_flatMap] at hle ⊢
  unfold MessageData.serialize
  rw [ofExcept_bind hv]
  refine Writes.bind (Writes.forM fun i hi => writes_field hs hw (M.number_le i) _ _ (hn i) ?_) ?_
  · have hpart := length_le_flatMap
      (g := fun i => encodeAll (FieldState.trees encoding (M.number i) _ (m.fields i))) hi
    omega
  · by_cases he : m.unknownFields.val.isEmpty = true
    · rw [if_pos he, List.isEmpty_iff.mp he]
      exact .nil
    · rw [if_neg he]
      exact .bytes _

/-- At every level, a valid message is written as its encoding. -/
theorem Message.serializes (S : Schema) (levels : ℕ) :
    Serializes (Message.validate S levels) (Message.encoding S levels)
      (Message.serialize S levels : (id : ℕ) → Message S levels id → EStateM Error σ Unit) := by
  induction levels with
  | zero => exact fun id v => v.elim
  | succ levels ih =>
    exact fun id m hv hle => MessageData.writes_serialize (Message.measures S levels) ih m hv hle

end

theorem records_of_leaves {ts : List Tree} (h : ∀ t ∈ ts, ∃ n c, 0 < n ∧ n ≤ maxNumber ∧
    Leaf n c t.body t) : Records Leaf (encodeAll ts) ts := by
  induction ts with
  | nil => simpa using Records.nil
  | cons t ts ih =>
    obtain ⟨n, c, hpos, hn, hl⟩ := h t List.mem_cons_self
    obtain ⟨hnum, hcode⟩ := hl.number_code
    have hk := key_canonical hpos hn hl.code_lt
    rw [encodeAll_cons, Tree.encode, hnum, hcode, List.append_assoc]
    exact .cons hk hl (ih fun u hu => h u (List.mem_cons_of_mem _ hu))

section
variable {Sub : ℕ → Type} {encoding : (id : ℕ) → Sub id → List UInt8}

private theorem bytes_leaf {n : ℕ} {payload : List UInt8} (h : payload.length ≤ usizeMax) :
    Leaf n 2 (Tree.bytes n payload).body (.bytes n payload) :=
  .bytes (varint_encode (lt_of_le_usizeMax h))

theorem valueTree_leaf (n : ℕ) (kind : ValueKind) (v : kind.Carrier Sub)
    (hle : (valueTree encoding n kind v).encode.length ≤ usizeMax) :
    ∃ c, Leaf n c (valueTree encoding n kind v).body (valueTree encoding n kind v) := by
  match kind, v, hle with
  | .scalar t, v, _ =>
    have hl := scalarTree_leaf t n v
    exact ⟨_, hl.canonical.1⟩
  | .string, v, hle | .bytes, v, hle | .message id _, v, hle => exact ⟨2, bytes_leaf (payload_le hle)⟩

theorem fieldTrees_leaf {n : ℕ} (kind : FieldKind) (v : FieldState Sub kind) {t : Tree}
    (ht : t ∈ FieldState.trees encoding n kind v) (hle : t.encode.length ≤ usizeMax) :
    ∃ c, Leaf n c t.body t := by
  have hsingular : ∀ (kind : SingularKind) (w : kind.Carrier Sub),
      t = singularTree encoding n kind w → ∃ c, Leaf n c t.body t := by
    rintro kind w rfl
    match kind, w, hle with
    | .value kind, w, hle => exact valueTree_leaf n kind w hle
    | .byteArray max fixed, w, hle => exact ⟨2, bytes_leaf (payload_le hle)⟩
  have heach : ∀ (kind : ValueKind) (l : List (kind.Carrier Sub)),
      t ∈ l.map (valueTree encoding n kind) → ∃ c, Leaf n c t.body t := by
    intro kind l hm
    obtain ⟨w, -, rfl⟩ := List.mem_map.mp hm
    exact valueTree_leaf n kind w hle
  match kind, v, ht with
  | .implicit kind hd, v, ht =>
    obtain ⟨w, -, rfl⟩ := List.mem_map.mp ht
    exact hsingular kind w rfl
  | .explicit kind req oneof, v, ht =>
    obtain ⟨w, -, rfl⟩ := List.mem_map.mp ht
    exact hsingular kind w rfl
  | .repeated (.scalar s) true st, items, ht =>
    have hm : t ∈ if items.val.isEmpty then []
        else [Tree.bytes n (items.val.flatMap (scalarBytes s))] := ht
    by_cases he : items.val.isEmpty = true
    · rw [if_pos he] at hm
      cases hm
    · rw [if_neg he] at hm
      obtain rfl := List.mem_singleton.mp hm
      exact ⟨2, bytes_leaf (payload_le hle)⟩
  | .repeated (.scalar s) false st, items, ht => exact heach (.scalar s) items.val ht
  | .repeated .string packed st, items, ht => exact heach .string items.val ht
  | .repeated .bytes packed st, items, ht => exact heach .bytes items.val ht
  | .repeated (.message id boxed) packed st, items, ht => exact heach (.message id boxed) items.val ht
  | .map key value mb, m, ht =>
    obtain ⟨e, -, rfl⟩ := List.mem_map.mp ht
    exact ⟨2, bytes_leaf (payload_le hle)⟩

theorem length_encode_le {t : Tree} {ts : List Tree} (h : t ∈ ts) :
    t.encode.length ≤ (encodeAll ts).length := by
  obtain ⟨front, back, rfl⟩ := List.append_of_mem h
  rw [encodeAll_append, encodeAll_cons]
  simp only [List.length_append]
  omega

theorem MessageData.records_trees {M : MessageModel} (m : MessageData M Sub)
    (hle : (encodeAll (m.trees encoding)).length ≤ usizeMax) :
    Records Leaf (encodeAll (m.trees encoding)) (m.trees encoding) := by
  refine records_of_leaves fun t ht => ?_
  have htle := Nat.le_trans (length_encode_le ht) hle
  obtain ⟨i, -, hi⟩ := List.mem_flatMap.mp ht
  obtain ⟨c, hc⟩ := fieldTrees_leaf (M.kind i) (m.fields i) hi htle
  exact ⟨M.number i, c, M.number_pos i, M.number_le i, hc⟩

end

namespace Message

variable {S : Schema} {levels id : ℕ}

theorem encoding_eq (m : Message S levels id) :
    encoding S levels id m = encodeAll (trees S levels id m) ++ unknownBytes S levels id m := by
  cases levels with
  | zero => exact m.elim
  | succ levels => rfl

theorem records_trees (m : Message S levels id)
    (hle : (encoding S levels id m).length ≤ usizeMax) :
    Records Leaf (encodeAll (trees S levels id m)) (trees S levels id m) := by
  cases levels with
  | zero => exact m.elim
  | succ levels =>
    refine MessageData.records_trees m (Nat.le_trans ?_ hle)
    rw [encoding_eq, List.length_append]
    exact Nat.le_add_right _ _

/-- A span with room for the encoding gets it at its start, and no other span is written to. -/
theorem serializeToSpan_eq {m : Message S levels id} {n : ℕ}
    (hv : validate S levels id m = .ok ()) (h : encodedSize S levels id m = .ok n)
    (span : List UInt8) : serializeToSpan S levels id m span =
      if n ≤ span.length then (.ok n, encoding S levels id m ++ span.drop n)
      else (.error { code := .sizeLimit }, span) := by
  obtain ⟨-, hle, rfl⟩ := (measures S levels id m n).mp h
  simp only [serializeToSpan, h]
  by_cases hn : (encoding S levels id m).length ≤ span.length
  · rw [if_neg (by omega), if_pos hn]
    have hroom : Room ({ data := span } : SliceWriter) (encoding S levels id m).length := hn
    obtain ⟨w, hw, hout, hkeeps, -⟩ := (serializes S levels id m hv hle).room hroom
    have hbytes : w.data.take w.pos = encoding S levels id m := hout
    have hpos : w.pos = (encoding S levels id m).length := by
      rw [← hbytes, List.length_take, Nat.min_eq_left w.pos_le]
    have hdata : w.data = encoding S levels id m ++ span.drop (encoding S levels id m).length := by
      have hdrop : w.data.drop w.pos = span.drop w.pos := hkeeps.drop
      rw [← hpos, ← hdrop, ← hbytes, List.take_append_drop]
    have hposition : w.position = (encoding S levels id m).length := by
      have hbase : w.baseOffset = 0 := hkeeps.base
      rw [SliceWriter.position, hbase, hpos, Nat.zero_add]
    simp only [hw, hposition, hdata]
  · rw [if_pos (by omega), if_neg hn]

/-- The size function and the serializer agree for every message: the size is what any writer with
room gets, as records whose length prefixes count their payloads. -/
theorem encodedSize_serialize (m : Message S levels id) (n : ℕ)
    (hv : validate S levels id m = .ok ()) (h : encodedSize S levels id m = .ok n) :
    (encoding S levels id m).length = n ∧
    encoding S levels id m = encodeAll (trees S levels id m) ++ unknownBytes S levels id m ∧
    Records Leaf (encodeAll (trees S levels id m)) (trees S levels id m) ∧
    (∀ (σ : Type) [Writer σ] [LawfulWriter σ] (s : σ), Room s n →
      ∃ s', serialize S levels id m s = .ok () s' ∧
        output s' = output s ++ encoding S levels id m) ∧
    ∀ span, serializeToSpan S levels id m span =
      if n ≤ span.length then (.ok n, encoding S levels id m ++ span.drop n)
      else (.error { code := .sizeLimit }, span) := by
  have hspan := serializeToSpan_eq hv h
  obtain ⟨-, hle, rfl⟩ := (measures S levels id m n).mp h
  refine ⟨rfl, encoding_eq m, records_trees m hle, ?_, hspan⟩
  intro σ _ _ s hr
  obtain ⟨s', hs, hout, -⟩ := (serializes S levels id m hv hle).room hr
  exact ⟨s', hs, hout⟩

theorem nodeCapacity_le : 8 ≤ usizeMax := by decide

/-- A number, the rest of a list, a packed run and a map. -/
def nodeSchema : Schema := fun _ =>
  { fields := [⟨1, .implicit (.value (.scalar .int32)) int32_hasDefault⟩,
      ⟨2, .explicit (.value (.message 0 true)) false none⟩,
      ⟨3, .repeated (.scalar .uint32) true (.vector ⟨8, nodeCapacity_le⟩)⟩,
      ⟨4, .map (.scalar .int32 int32_isKey) (.scalar .int32) ⟨8, nodeCapacity_le⟩⟩]
    valid := by decide
    distinct := by decide }

instance : CopyValue (BitVec 32) where
  copyValue := pure

/-- A map from 1 to 2 is made. -/
def makeNodeMap :
    EStateM.Result Error (Bound (HashMap 8 (BitVec 32) (BitVec 32))) Unit :=
  HashMap.insertOrAssign false false (1 : BitVec 32) (2 : BitVec 32) false
    { ctx := { limits := { maxUnknownFieldBytes_le := unknownFieldBytes_le } }
      obj := HashMap.empty }

theorem makeNodeMap_wellFormed :
    Exits makeNodeMap (fun _ t => t.obj.WellFormed) (fun _ _ => True) :=
  (HashMap.insertOrAssign_moved_exits (by decide) HashMap.wellFormed_empty _ _).mono
    (fun _ _ h => h.2.1) fun _ _ _ => trivial

def nodeMap : {m : HashMap 8 (BitVec 32) (BitVec 32) // m.WellFormed} :=
  match h : makeNodeMap with
  | .ok _ t => ⟨t.obj, makeNodeMap_wellFormed.ok h⟩
  | .error _ _ => ⟨.empty, HashMap.wellFormed_empty⟩

theorem nodeRun_le : [(1 : BitVec 32), 300].length ≤ 8 := by decide

def sampleNode : Message nodeSchema 2 0 :=
  let rest : Message nodeSchema 1 0 :=
    (MessageData.empty : MessageData (nodeSchema 0) _).setField (0 : Fin 4) (7 : BitVec 32)
  (((MessageData.empty : MessageData (nodeSchema 0) (Message nodeSchema 1)).setField (1 : Fin 4)
    (some rest)).setField (2 : Fin 4) ⟨[1, 300], nodeRun_le⟩).setField (3 : Fin 4) nodeMap

theorem encodedSize_serialize_node :
    encoding nodeSchema 2 0 sampleNode =
      [18, 2, 8, 7, 26, 3, 1, 172, 2, 34, 4, 8, 1, 16, 2] ∧
    serializeToSpan nodeSchema 2 0 sampleNode (List.replicate 16 0) =
      (.ok 15, [18, 2, 8, 7, 26, 3, 1, 172, 2, 34, 4, 8, 1, 16, 2, 0]) ∧
    serializeToSpan nodeSchema 2 0 sampleNode (List.replicate 14 0) =
      (.error { code := .sizeLimit }, List.replicate 14 0) := by
  have hbytes : encoding nodeSchema 2 0 sampleNode =
      [18, 2, 8, 7, 26, 3, 1, 172, 2, 34, 4, 8, 1, 16, 2] := by decide +kernel
  obtain ⟨_, _, _, _, hspan⟩ := @encodedSize_serialize nodeSchema 2 0 sampleNode 15
    (by decide +kernel) (by decide +kernel)
  refine ⟨hbytes, ?_, ?_⟩
  · rw [hspan, hbytes]
    rfl
  · rw [hspan]
    rfl

end Message

end Protocyte
