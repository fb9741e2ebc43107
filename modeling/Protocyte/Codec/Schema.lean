import Protocyte.Codec.Scalar
import Protocyte.Runtime.HashMap.Operations
import Protocyte.Runtime.UnknownFields.Storage
import Mathlib.Data.List.Nodup
import Mathlib.Data.List.Sort

/-! Schemas, and the messages of a schema. A message is a record with one slot for every field of
its model; the type of a slot is the storage the generator emits for the field's kind. Vectors and
strings are their items: a vector asks for memory whenever it grows. -/
namespace Protocyte
open Foundation.Computation

/-- A number that fits in `usize`. -/
abbrev Usize := {n : ℕ // n ≤ usizeMax}

abbrev Bytes := {bytes : List UInt8 // bytes.length ≤ usizeMax}

def Bytes.empty : Bytes := ⟨[], Nat.zero_le _⟩

/-- The kinds of values. A message field that takes part in a cycle of the schema is `boxed`. -/
inductive ValueKind
  | scalar (t : ScalarType)
  | string
  | bytes
  | message (id : ℕ) (boxed : Bool)

/-- A singular `bytes` field may be a `ByteArray` or, when `fixed`, a `FixedByteArray`. -/
inductive SingularKind
  | value (kind : ValueKind)
  | byteArray (max : Usize) (fixed : Bool)

inductive KeyKind
  | scalar (t : ScalarType) (h : t.isKey = true)
  | string

/-- What holds the items of a repeated field: a `Vector`, by its `max_size()`, or an `Array`. -/
inductive Storage
  | vector (maxSize : Usize)
  | array (max : Usize) (fixed : Bool)

namespace SingularKind

/-- The kinds a field without presence may have. -/
def hasDefault : SingularKind → Bool
  | value (.scalar _) | value .string | value .bytes | byteArray _ false => true
  | value (.message ..) | byteArray _ true => false

end SingularKind

inductive FieldKind
  | implicit (kind : SingularKind) (h : kind.hasDefault = true)
  | explicit (kind : SingularKind) (required : Bool) (oneof : Option ℕ)
  | repeated (kind : ValueKind) (packed : Bool) (storage : Storage)
  | map (key : KeyKind) (value : ValueKind) (maxBuckets : Usize)

structure FieldModel where
  number : ℕ
  kind : FieldKind

/-- Fields in the order of their declaration. -/
structure MessageModel where
  fields : List FieldModel
  valid : ∀ f ∈ fields, 0 < f.number ∧ f.number ≤ Foundation.Wire.maxNumber
  distinct : (fields.map FieldModel.number).Nodup

/-- The message models by their identifiers. -/
abbrev Schema := ℕ → MessageModel

def Storage.capacity : Storage → ℕ
  | vector maxSize => maxSize
  | array max _ => max

theorem Storage.capacity_le (s : Storage) : s.capacity ≤ usizeMax := by
  cases s with
  | vector maxSize => exact maxSize.2
  | array max fixed => exact max.2

def KeyKind.value : KeyKind → ValueKind
  | scalar t _ => .scalar t
  | string => .string

/-- The oneof a field is a member of. -/
def FieldKind.oneof : FieldKind → Option ℕ
  | explicit _ _ oneof => oneof
  | implicit .. | repeated .. | map .. => none

namespace MessageModel

abbrev Index (M : MessageModel) : Type := Fin M.fields.length

def field (M : MessageModel) (i : M.Index) : FieldModel := M.fields[i]

abbrev number (M : MessageModel) (i : M.Index) : ℕ := (M.field i).number

abbrev kind (M : MessageModel) (i : M.Index) : FieldKind := (M.field i).kind

/-- `sorted(message.fields, key=lambda f: f.number)` -/
def sorted (M : MessageModel) : List M.Index :=
  (List.finRange M.fields.length).insertionSort fun i j => M.number i ≤ M.number j

/-- `switch (static_cast<FieldNumber>(field_number))` -/
def find (M : MessageModel) (number : ℕ) : Option M.Index :=
  (List.finRange M.fields.length).find? fun i => M.number i = number

theorem number_pos (M : MessageModel) (i : M.Index) : 0 < M.number i :=
  (M.valid _ (List.getElem_mem i.isLt)).1

theorem number_le (M : MessageModel) (i : M.Index) : M.number i ≤ Foundation.Wire.maxNumber :=
  (M.valid _ (List.getElem_mem i.isLt)).2

theorem number_injective (M : MessageModel) {i j : M.Index} (h : M.number i = M.number j) :
    i = j := by
  have hi : i.val < (M.fields.map FieldModel.number).length := by simp
  have hj : j.val < (M.fields.map FieldModel.number).length := by simp
  have he : (M.fields.map FieldModel.number)[i.val] = (M.fields.map FieldModel.number)[j.val] := by
    rw [List.getElem_map, List.getElem_map]
    exact h
  exact Fin.ext ((List.Nodup.getElem_inj_iff M.distinct).mp he)

theorem find_eq_some (M : MessageModel) {n : ℕ} {i : M.Index} :
    M.find n = some i ↔ M.number i = n := by
  constructor
  · intro h
    simpa using List.find?_some h
  · intro h
    cases hf : M.find n with
    | none =>
      have hn := List.find?_eq_none.mp hf i (List.mem_finRange i)
      simp [h] at hn
    | some j =>
      have hj : M.number j = n := by simpa using List.find?_some hf
      rw [M.number_injective (h.trans hj.symm)]

theorem sorted_perm (M : MessageModel) : M.sorted.Perm (List.finRange M.fields.length) :=
  List.perm_insertionSort _ _

theorem mem_sorted (M : MessageModel) (i : M.Index) : i ∈ M.sorted :=
  M.sorted_perm.mem_iff.mpr (List.mem_finRange i)

theorem nodup_sorted (M : MessageModel) : M.sorted.Nodup :=
  M.sorted_perm.nodup_iff.mpr (List.nodup_finRange _)

end MessageModel

theorem int32_hasDefault : (SingularKind.value (.scalar .int32)).hasDefault = true := rfl

theorem int32_isKey : ScalarType.int32.isKey = true := rfl

/-- Linked lists: a number, and the rest of the list. -/
def listSchema : Schema := fun _ =>
  { fields := [⟨1, .implicit (.value (.scalar .int32)) rfl⟩,
      ⟨2, .explicit (.value (.message 0 true)) false none⟩]
    valid := by decide
    distinct := by decide }

/-- `Config::hash` of an integral key hashes its bytes. -/
instance (w : ℕ) : MapKey (BitVec w) :=
  ⟨fun v => fnv1a (Foundation.LittleEndian.toBytes ((w + 7) / 8) v.toNat), fun a b => a == b⟩

instance (w : ℕ) : LawfulMapKey (BitVec w) where
  refl a := beq_self_eq_true a
  symm h := by
    rw [eq_of_beq h]
    exact beq_self_eq_true _
  trans h h' := by
    rw [eq_of_beq h]
    exact h'
  hash_eq h := by rw [eq_of_beq h]

instance : MapKey Bytes := ⟨fun b => MapKey.hash b.val, fun a b => MapKey.equal a.val b.val⟩

instance : LawfulMapKey Bytes where
  refl a := LawfulMapKey.refl a.val
  symm h := LawfulMapKey.symm (K := List UInt8) h
  trans h h' := LawfulMapKey.trans (K := List UInt8) h h'
  hash_eq h := LawfulMapKey.hash_eq (K := List UInt8) h

abbrev ValueKind.Carrier (Sub : ℕ → Type) : ValueKind → Type
  | scalar t => t.Value
  | string | bytes => Bytes
  | message id _ => Sub id

/-- The bytes of a `ByteArray<max>`, or of a `FixedByteArray<max>` that has a value. -/
abbrev ArrayBytes (max : Usize) (fixed : Bool) : Type :=
  {bytes : List UInt8 // bytes.length ≤ max.val ∧ (fixed = true → bytes.length = max.val)}

abbrev SingularKind.Carrier (Sub : ℕ → Type) : SingularKind → Type
  | value kind => kind.Carrier Sub
  | byteArray max fixed => ArrayBytes max fixed

abbrev KeyKind.Carrier (Sub : ℕ → Type) (key : KeyKind) : Type := key.value.Carrier Sub

instance (Sub : ℕ → Type) : (key : KeyKind) → MapKey (key.Carrier Sub)
  | .scalar t _ => inferInstanceAs (MapKey t.Value)
  | .string => inferInstanceAs (MapKey Bytes)

instance (Sub : ℕ → Type) : (key : KeyKind) → LawfulMapKey (key.Carrier Sub)
  | .scalar t _ => inferInstanceAs (LawfulMapKey t.Value)
  | .string => inferInstanceAs (LawfulMapKey Bytes)

theorem KeyKind.equal_iff (Sub : ℕ → Type) (key : KeyKind) (a b : key.Carrier Sub) :
    MapKey.equal a b = true ↔ a = b := by
  cases key with
  | scalar t h =>
    change (BEq.beq (α := t.Value) a b) = true ↔ _
    exact beq_iff_eq
  | string =>
    change (BEq.beq a.val b.val) = true ↔ _
    rw [beq_iff_eq]
    exact Subtype.ext_iff.symm

theorem HashMap.wellFormed_empty {maxBuckets : ℕ} {K V : Type} [MapKey K] :
    (HashMap.empty : HashMap maxBuckets K V).WellFormed where
  power := Or.inl rfl
  size_eq := rfl
  size_le := Nat.zero_le _
  below h := absurd rfl h
  distinct := by intro i j e f hi; simp [HashMap.empty] at hi
  chained := by intro i e hi; simp [HashMap.empty] at hi

/-- The member the generator emits for a field. An implicit field has no presence flag. -/
abbrev FieldState (Sub : ℕ → Type) : FieldKind → Type
  | .implicit kind _ => kind.Carrier Sub
  | .explicit kind _ _ => Option (kind.Carrier Sub)
  | .repeated kind _ storage => {items : List (kind.Carrier Sub) // items.length ≤ storage.capacity}
  | .map key value maxBuckets =>
    {m : HashMap maxBuckets (key.Carrier Sub) (value.Carrier Sub) // m.WellFormed}

namespace FieldState

variable {Sub : ℕ → Type}

def defaultValue : (kind : SingularKind) → kind.hasDefault = true → kind.Carrier Sub
  | .value (.scalar t), _ => (0 : t.Value)
  | .value .string, _ | .value .bytes, _ => Bytes.empty
  | .byteArray _ false, _ => ⟨[], Nat.zero_le _, nofun⟩

def default : (kind : FieldKind) → FieldState Sub kind
  | .implicit kind h => defaultValue kind h
  | .explicit .. => none
  | .repeated .. => ⟨[], Nat.zero_le _⟩
  | .map .. => ⟨.empty, HashMap.wellFormed_empty⟩

/-- Whether a field holds the case of its oneof. -/
def isSet : (kind : FieldKind) → FieldState Sub kind → Bool
  | .explicit .., v => v.isSome
  | .implicit .., _ | .repeated .., _ | .map .., _ => false

/-- What clearing the oneof leaves of a member. -/
def cleared : (kind : FieldKind) → FieldState Sub kind → FieldState Sub kind
  | .explicit .., _ => none
  | .implicit .., v | .repeated .., v | .map .., v => v

@[simp] theorem isSet_default (kind : FieldKind) :
    isSet kind (default kind : FieldState Sub kind) = false := by
  cases kind <;> rfl

@[simp] theorem isSet_cleared (kind : FieldKind) (v : FieldState Sub kind) :
    isSet kind (cleared kind v) = false := by
  cases kind <;> rfl

theorem cleared_of_not_isSet {kind : FieldKind} {v : FieldState Sub kind}
    (h : isSet kind v = false) : cleared kind v = v := by
  cases kind with
  | explicit kind required oneof =>
    cases v with
    | none => rfl
    | some v => cases h
  | implicit kind h' | repeated kind packed storage | map key value maxBuckets => rfl

end FieldState

/-- A message, given the messages it may hold. The members of a oneof share their storage, so at
most one of them is set. -/
structure MessageData (M : MessageModel) (Sub : ℕ → Type) where
  fields : (i : M.Index) → FieldState Sub (M.kind i)
  unknownFields : Bytes
  exclusive : ∀ i j : M.Index, i ≠ j → (M.kind i).oneof ≠ none →
    (M.kind i).oneof = (M.kind j).oneof → FieldState.isSet _ (fields i) = true →
    FieldState.isSet _ (fields j) = false

/-- The messages of a schema that nest less than `levels` deep. -/
def Message (S : Schema) : ℕ → ℕ → Type
  | 0, _ => Empty
  | levels + 1, id => MessageData (S id) (Message S levels)

namespace MessageData

variable {M : MessageModel} {Sub : ℕ → Type}

/-- A message that has just been constructed. -/
def empty : MessageData M Sub where
  fields i := .default (M.kind i)
  unknownFields := .empty
  exclusive i j _ _ _ h := by simp at h

/-- Storing a member sets the case of its oneof, and clears what held it before. -/
def setField (m : MessageData M Sub) (i : M.Index) (v : FieldState Sub (M.kind i)) :
    MessageData M Sub where
  fields j :=
    if h : j = i then h ▸ v
    else if (M.kind i).oneof ≠ none ∧ (M.kind i).oneof = (M.kind j).oneof ∧
      FieldState.isSet _ v = true then .cleared _ (m.fields j)
    else m.fields j
  unknownFields := m.unknownFields
  exclusive := by
    intro j k hjk ho hs hset
    by_cases hj : j = i
    · subst hj
      rw [dif_pos rfl] at hset
      rw [dif_neg (Ne.symm hjk), if_pos ⟨ho, hs, hset⟩]
      exact FieldState.isSet_cleared _ _
    · rw [dif_neg hj] at hset
      by_cases hc : (M.kind i).oneof ≠ none ∧ (M.kind i).oneof = (M.kind j).oneof ∧
          FieldState.isSet _ v = true
      · rw [if_pos hc, FieldState.isSet_cleared] at hset
        cases hset
      · rw [if_neg hc] at hset
        have hk := m.exclusive j k hjk ho hs hset
        by_cases hki : k = i
        · subst hki
          rw [dif_pos rfl]
          by_contra hv
          rw [Bool.not_eq_false] at hv
          exact hc ⟨hs ▸ ho, hs.symm, hv⟩
        · rw [dif_neg hki]
          split
          · exact FieldState.isSet_cleared _ _
          · exact hk

@[simp] theorem setField_same (m : MessageData M Sub) (i : M.Index)
    (v : FieldState Sub (M.kind i)) : (m.setField i v).fields i = v := by
  simp [setField]

theorem setField_self (m : MessageData M Sub) (i : M.Index) : m.setField i (m.fields i) = m := by
  have hf : (m.setField i (m.fields i)).fields = m.fields := by
    funext j
    simp only [setField]
    by_cases hj : j = i
    · subst hj
      rw [dif_pos rfl]
    · rw [dif_neg hj]
      split
      · next h =>
        exact FieldState.cleared_of_not_isSet (m.exclusive i j (Ne.symm hj) h.1 h.2.1 h.2.2)
      · rfl
  cases m
  simp only [setField] at hf ⊢
  simp only [hf]

end MessageData

/-- `Message {ctx}`; no message nests deeper than the levels there are. -/
def Message.create (S : Schema) : (levels id : ℕ) → Except Error (Message S levels id)
  | 0, _ => throw { code := .diverged }
  | _ + 1, _ => return MessageData.empty

/-- The storage of the unknown fields of a message itself. -/
def Message.unknownBytes (S : Schema) : (levels id : ℕ) → Message S levels id → List UInt8
  | 0, _, m => m.elim
  | _ + 1, _, m => m.unknownFields.val

end Protocyte
