import Protocyte.Codec.MapEntry
import Protocyte.Codec.PackedRun

/-! What a message stores among its unknown fields: records of other numbers or wire types, values
that are none of their enumeration, and map entries with such values. All are stored again. -/
namespace Protocyte
open Foundation.Computation Foundation.Wire

/-- The record of a value that is none of its enumeration. -/
def ScalarType.Undeclared (t : ScalarType) (f : ℕ) (r : Tree) : Prop :=
  ∃ raw, raw < 2 ^ 64 ∧ t.closedInvalid (BitVec.ofNat t.width raw) = true ∧ r = .varint f raw

/-- The records of a field that are stored among the unknown fields. -/
def FieldKind.Diverts (Sub : ℕ → Type) (f : ℕ) : FieldKind → Tree → Prop
  | .implicit (.value (.scalar t)) _, r | .explicit (.value (.scalar t)) .., r
  | .repeated (.scalar t) .., r => t.Undeclared f r
  | .map key value _, r => ∃ fields : List (SpelledField Sub key value),
      Protocyte.Diverts fields ∧ (payload fields).length ≤ usizeMax ∧ r = .bytes f (payload fields)
  | .implicit (.value .string) _, _ | .implicit (.value .bytes) _, _
  | .implicit (.value (.message ..)) _, _ | .implicit (.byteArray ..) _, _
  | .explicit (.value .string) .., _ | .explicit (.value .bytes) .., _
  | .explicit (.value (.message ..)) .., _ | .explicit (.byteArray ..) .., _
  | .repeated .string .., _ | .repeated .bytes .., _ | .repeated (.message ..) .., _ => False

/-- A record that no field of the message takes. -/
inductive MessageModel.Stray (M : MessageModel) (Sub : ℕ → Type) (r : Tree) : Prop
  | refused {d : ℕ} (w : WireType) (hw : w.code = r.code)
      (hn : 0 < r.number ∧ r.number ≤ maxNumber) (hb : Body d r.number r.code r.body r)
      (h : ∀ i, M.number i = r.number → (M.kind i).allows w = false)
  | diverted (i : M.Index) (h : (M.kind i).Diverts Sub (M.number i) r)

variable {Sub : ℕ → Type} {ops : MessageOps Sub} {B : Bounds}

/-- Only the storage of the unknown fields gains the record. -/
def Slot.Stores {kind : FieldKind} (old : Slot Sub kind) (r : Tree) (new : Slot Sub kind) : Prop :=
  new.value = old.value ∧ new.unknown.val = old.unknown.val ++ r.encode

/-- A value of a closed enumeration as it was stored. -/
def SpelledScalar.stored {t : ScalarType} {raw : ℕ} (hraw : raw < 2 ^ 64)
    (h : t.closedInvalid (BitVec.ofNat t.width raw) = true) : SpelledScalar t where
  bytes := Foundation.Base128.encode raw
  value := BitVec.ofNat t.width raw
  raw := raw
  encodes := by
    cases t with
    | closedEnum values => exact ⟨raw, varint_encode hraw, rfl⟩
    | _ => cases h
  closed _ := ⟨varint_encode hraw, rfl⟩

private theorem wireType_of_closedInvalid {t : ScalarType} {v : t.Value}
    (h : t.closedInvalid v = true) : t.wireType = .varint ∧ t.isClosed = true := by
  cases t with
  | closedEnum values => exact ⟨rfl, rfl⟩
  | _ => cases h

private theorem readUndeclared_takes {kind : FieldKind} {t : ScalarType} {f raw : ℕ}
    (hf : 0 < f ∧ f ≤ maxNumber) (hraw : raw < 2 ^ 64)
    (h : t.closedInvalid (BitVec.ofNat t.width raw) = true) (read : ReaderM t.Value)
    {u : Parse (Slot Sub kind)} {c : ℕ}
    (hroom : B.Stores (u.obj.unknown.val.length + (Tree.varint f raw).encode.length)) :
    Takes B (readAcceptedScalar true Slot.unknownLens t read f) u (Tree.varint f raw).body
      (fun a slot => a = none ∧ u.obj.Stores (.varint f raw) slot) c := by
  have hclosed := (wireType_of_closedInvalid h).2
  have hdiverted : (SpelledScalar.stored hraw h).diverted true f = (Tree.varint f raw).encode :=
    SpelledScalar.diverted_of_invalid h f
  rw [← hdiverted] at hroom
  refine (Takes.readAcceptedScalar true Slot.unknownLens hf (.stored hraw h)
    (fun hopen => ?_) hroom).mono ?_
  · rw [hclosed] at hopen
    cases hopen
  · rintro a slot ⟨ha, storage, hstorage, rfl⟩
    refine ⟨ha.trans (SpelledScalar.accepted_of_invalid h), rfl, ?_⟩
    rw [hdiverted] at hstorage
    exact hstorage

/-- A diverted record is taken by its field, which stores it. It may be charged for its tag too. -/
theorem FieldKind.Diverts.takes {kind : FieldKind} {f : ℕ} (hf : 0 < f ∧ f ≤ maxNumber) {r : Tree}
    (h : kind.Diverts Sub f r) (ops : MessageOps Sub) : ∃ w : WireType, kind.allows w = true ∧
      r.encode = key f w.code ++ r.body ∧ ∀ u : Parse (Slot Sub kind),
        B.Stores (u.obj.unknown.val.length + r.encode.length) →
        Takes B (kind.parseCase ops true w f) u r.body (fun _ slot => u.obj.Stores r slot)
          (1 + r.body.length) := by
  cases kind with
  | implicit kind hd =>
    cases kind with
    | byteArray max fixed => exact h.elim
    | value kind =>
      cases kind with
      | string | bytes | message id boxed => exact h.elim
      | scalar t =>
        obtain ⟨raw, hraw, hinvalid, rfl⟩ := h
        have hw := (wireType_of_closedInvalid hinvalid).1
        refine ⟨.varint, by simp [allows, SingularKind.wireType, ValueKind.wireType, hw], rfl,
          fun u hroom => ?_⟩
        refine (readUndeclared_takes hf hraw hinvalid _ hroom).andThen fun a x _ ⟨ha, hx⟩ => ?_
        rw [ha]
        exact .pure hx
  | explicit kind required oneof =>
    cases kind with
    | byteArray max fixed => exact h.elim
    | value kind =>
      cases kind with
      | string | bytes | message id boxed => exact h.elim
      | scalar t =>
        obtain ⟨raw, hraw, hinvalid, rfl⟩ := h
        have hw := (wireType_of_closedInvalid hinvalid).1
        refine ⟨.varint, by simp [allows, SingularKind.wireType, ValueKind.wireType, hw], rfl,
          fun u hroom => ?_⟩
        refine Takes.get_bind ?_
        refine (readUndeclared_takes hf hraw hinvalid _ hroom).andThen fun a x _ ⟨ha, hx⟩ => ?_
        rw [ha]
        exact .pure hx
  | «repeated» kind packed storage =>
    cases kind with
    | string | bytes | message id boxed => exact h.elim
    | scalar t =>
      obtain ⟨raw, hraw, hinvalid, rfl⟩ := h
      have hw := (wireType_of_closedInvalid hinvalid).1
      refine ⟨.varint, by simp [allows, hw], rfl, fun u hroom => ?_⟩
      have hparse : parseCase ops true .varint f (.repeated (.scalar t) packed storage) =
          readRepeatedField ops true .varint f := rfl
      rw [hparse]
      refine (Takes.consume _ _ (Nat.le_refl 1)).charge (Nat.le_refl _) fun _ x _ hx => ?_
      rw [← hx] at hroom ⊢
      refine (readUndeclared_takes hf hraw hinvalid _ hroom).andThen fun a y _ ⟨ha, hy⟩ => ?_
      rw [ha]
      exact .pure hy
  | map key value maxBuckets =>
    obtain ⟨fields, hdiverts, hlen, rfl⟩ := h
    refine ⟨.len, rfl, rfl, fun u hroom => ?_⟩
    cases value with
    | string | bytes | message id boxed =>
      obtain ⟨_, _, hundeclared⟩ := hdiverts
      cases hundeclared
    | scalar t =>
      have hfields : Acceptable B ops fields (0 : t.Value) := fun _ _ _ _ _ _ _ => trivial
      have hfits : u.obj.Fits B true f fields := ⟨fun hn => absurd hdiverts hn, fun _ _ => hroom⟩
      refine (readMap_takes true hf (delimited_encode hlen) hfields rfl hfits).mono
        fun _ slot h => ?_
      exact h.diverted hdiverts

end Protocyte
