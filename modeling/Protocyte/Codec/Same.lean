import Protocyte.Codec.Size

/-! Messages that are equal to their users: maps are compared as finite maps, since the order of
their entries depends on their tables. -/
namespace Protocyte
open Foundation.Computation

variable {Sub : ℕ → Type} (R : (id : ℕ) → Sub id → Sub id → Prop)

def ValueKind.Same : (kind : ValueKind) → kind.Carrier Sub → kind.Carrier Sub → Prop
  | message id _, v, w => R id v w
  | scalar _, v, w => v = w
  | string, v, w | bytes, v, w => v = w

def SingularKind.Same : (kind : SingularKind) → kind.Carrier Sub → kind.Carrier Sub → Prop
  | value kind, v, w => kind.Same R v w
  | byteArray .., v, w => v = w

def FieldState.Same : (kind : FieldKind) → FieldState Sub kind → FieldState Sub kind → Prop
  | .implicit kind _, v, w => kind.Same R v w
  | .explicit kind _ _, v, w => Option.Rel (kind.Same R) v w
  | .repeated kind _ _, v, w => List.Forall₂ (kind.Same R) v.val w.val
  | .map _ value _, v, w => ∀ k, Option.Rel (value.Same R) (v.val.lookup k) (w.val.lookup k)

/-- The same fields, and the same bytes of unknown fields. -/
structure MessageData.Same {M : MessageModel} (m m' : MessageData M Sub) : Prop where
  fields (i : M.Index) : FieldState.Same R _ (m.fields i) (m'.fields i)
  unknown : m'.unknownFields.val = m.unknownFields.val

def Message.Same (S : Schema) : (levels id : ℕ) → Message S levels id → Message S levels id → Prop
  | 0, _, m, _ => m.elim
  | levels + 1, _, m, m' => MessageData.Same (Same S levels) m m'

variable {R}

namespace FieldState.Same

theorem isSet {kind : FieldKind} {v w : FieldState Sub kind} (h : Same R kind v w) :
    FieldState.isSet kind w = FieldState.isSet kind v := by
  cases kind with
  | explicit kind required oneof =>
    cases h with
    | some h => rfl
    | none => rfl
  | implicit kind h' | «repeated» kind packed storage | map key value maxBuckets => rfl

theorem all {P : (kind : ValueKind) → kind.Carrier Sub → Prop}
    (hP : ∀ kind v w, ValueKind.Same R kind v w → P kind v → P kind w) {kind : FieldKind}
    {v w : FieldState Sub kind} (h : Same R kind v w) (hv : All P kind v) : All P kind w := by
  cases kind with
  | implicit kind hd =>
    cases kind with
    | value kind => exact hP kind _ _ h hv
    | byteArray max fixed => trivial
  | explicit kind required oneof =>
    cases kind with
    | value kind =>
      intro u hu
      cases hu
      cases h with
      | some h => exact hP kind _ _ h (hv _ rfl)
    | byteArray max fixed => trivial
  | «repeated» kind packed storage =>
    intro u hu
    obtain ⟨n, hn, rfl⟩ := List.mem_iff_getElem.mp hu
    have hlen : v.val.length = w.val.length := h.length_eq
    have hrel := h.get (i := n) (by omega) hn
    exact hP kind _ _ hrel (hv _ (List.getElem_mem _))
  | map key value maxBuckets =>
    intro e he
    have hw : w.val.lookup e.1 = some e.2 :=
      (HashMap.lookup_eq_some w.2.distinct).mpr ⟨e, he, LawfulMapKey.refl _, rfl⟩
    have hrel := h e.1
    rw [hw] at hrel
    cases hl : v.val.lookup e.1 with
    | none =>
      rw [hl] at hrel
      cases hrel
    | some u =>
      rw [hl] at hrel
      obtain ⟨f, hf, hk, rfl⟩ := (HashMap.lookup_eq_some v.2.distinct).mp hl
      have hkey : f.1 = e.1 := (key.equal_iff Sub _ _).mp hk
      cases hrel with
      | some hrel =>
        have hall := hv f hf
        rw [hkey] at hall
        exact ⟨hall.1, hP value _ _ hrel hall.2⟩

theorem validateFixedArray {kind : FieldKind} {v w : FieldState Sub kind} (h : Same R kind v w)
    (n : ℕ) : FieldState.validateFixedArray n kind w = FieldState.validateFixedArray n kind v := by
  cases kind with
  | implicit kind hd | explicit kind required oneof | map key value maxBuckets => rfl
  | «repeated» kind packed storage =>
    cases storage with
    | vector maxSize => rfl
    | array max fixed =>
      cases fixed with
      | false => rfl
      | true =>
        have hlen : v.val.length = w.val.length := h.length_eq
        have hnil : w.val ≠ [] ↔ v.val ≠ [] := by
          rw [← List.length_pos_iff, ← List.length_pos_iff, hlen]
        unfold FieldState.validateFixedArray
        simp only [hnil, hlen]

theorem validateRequired {kind : FieldKind} {v w : FieldState Sub kind} (h : Same R kind v w)
    (n : ℕ) : FieldState.validateRequired n kind w = FieldState.validateRequired n kind v := by
  cases kind with
  | implicit kind hd | «repeated» kind packed storage | map key value maxBuckets => rfl
  | explicit kind required oneof =>
    cases h with
    | some h => cases required <;> rfl
    | none => rfl

end FieldState.Same

/-- What is the same as a valid message is valid. -/
theorem MessageData.Same.validate {M : MessageModel} {m m' : MessageData M Sub}
    {nested : (id : ℕ) → Sub id → Except Error Unit} (h : m.Same R m')
    (hR : ∀ id v w, R id v w → nested id v = .ok () → nested id w = .ok ())
    (hv : m.validate nested = .ok ()) : m'.validate nested = .ok () := by
  obtain ⟨hfixed, hclosed, hrequired, hstring, hnested⟩ := MessageData.validate_eq_ok.mp hv
  have hkept {P : (kind : ValueKind) → kind.Carrier Sub → Prop}
      (hP : ∀ id boxed v w, R id v w → P (.message id boxed) v → P (.message id boxed) w)
      (kind : ValueKind) (v w : kind.Carrier Sub) (hs : kind.Same R v w) (hp : P kind v) :
      P kind w := by
    cases kind with
    | message id boxed => exact hP id boxed v w hs hp
    | scalar t | string | bytes =>
      cases hs
      exact hp
  refine MessageData.validate_eq_ok.mpr ⟨fun i => ?_, fun i => (h.fields i).all
    (hkept fun _ _ _ _ _ _ => rfl) (hclosed i), fun i => ?_, fun i => (h.fields i).all
    (hkept fun _ _ _ _ _ _ => rfl) (hstring i), fun i => (h.fields i).all
    (hkept fun id boxed v w hs hp => hR id v w hs hp) (hnested i)⟩
  · rw [(h.fields i).validateFixedArray]
    exact hfixed i
  · rw [(h.fields i).validateRequired]
    exact hrequired i

theorem Message.Same.validate {S : Schema} {levels id : ℕ} {m m' : Message S levels id}
    (h : Message.Same S levels id m m') (hv : Message.validate S levels id m = .ok ()) :
    Message.validate S levels id m' = .ok () := by
  induction levels generalizing id with
  | zero => exact m.elim
  | succ levels ih => exact MessageData.Same.validate h (fun _ _ _ hs hn => ih hs hn) hv

end Protocyte
