import Protocyte.Runtime.UnknownFields.Canonical
import Protocyte.Runtime.Vector

/-! Unknown-field storage: one byte vector in its context, and the writer that appends to it up
to the context's limit. -/
namespace Protocyte
open Foundation.Computation

namespace UnknownFieldWriter

/-- The writer's `maximum_` is its context's limit. -/
def canWrite (count : ℕ) (s : Bound ByteVec) : Bool :=
  s.obj.size ≤ s.ctx.limits.maxUnknownFieldBytes ∧
    count ≤ s.ctx.limits.maxUnknownFieldBytes - s.obj.size

def sizeLimit (s : Bound ByteVec) : Error := { code := .sizeLimit, offset := s.obj.size }

def writeByte (value : UInt8) : BoundM ByteVec Unit := fun s =>
  if !canWrite 1 s then .error (sizeLimit s) s else Vec.pushBack value s

def write (bytes : List UInt8) : BoundM ByteVec Unit := fun s =>
  if !canWrite bytes.length s then .error (sizeLimit s) s else Vec.appendTrivialRange bytes s

instance : Writer (Bound ByteVec) where
  canWrite := canWrite
  writeByte := writeByte
  write := write

/-- The limit and the memory for `n` more bytes. -/
def HasRoom (s : Bound ByteVec) (n : ℕ) : Prop :=
  s.ctx.AlwaysGrants ∧ s.obj.size + n ≤ s.ctx.limits.maxUnknownFieldBytes

theorem canWrite_iff (n : ℕ) (s : Bound ByteVec) :
    canWrite n s = true ↔ s.obj.size + n ≤ s.ctx.limits.maxUnknownFieldBytes := by
  simp only [canWrite, decide_eq_true_eq]
  omega

theorem refused_not_room {s : Bound ByteVec} {n : ℕ} {e : Error}
    (h : Vec.Refused s (s.obj.size + n) e) : ¬ HasRoom s n := by
  rintro ⟨hg, hn⟩
  have hle := Nat.le_trans hn s.ctx.limits.maxUnknownFieldBytes_le
  exact (h.not_alwaysGrants hle hle).2 hg

theorem refused_code {s : Bound ByteVec} {n : ℕ} {e : Error} (h : Vec.Refused s n e) :
    e.code ∈ [.noMemory, .sizeLimit, .countLimit, .integerOverflow] := by
  have := h.code
  simp only [List.mem_cons, List.not_mem_nil, or_false] at this ⊢
  rcases this with h | h | h <;> simp [h]

theorem hasRoom_after {s s' : Bound ByteVec} {bs : List UInt8}
    (hs : s.ctx.Spent s'.ctx) (hi : s'.obj.items = s.obj.items ++ bs) (n : ℕ)
    (h : HasRoom s (bs.length + n)) : HasRoom s' n := by
  refine ⟨hs.alwaysGrants h.1, ?_⟩
  rw [hs.limits, Vec.size, hi, List.length_append]
  exact Nat.add_assoc _ _ _ ▸ h.2

/-- A writer only allocates, and stays within the limit it starts within. -/
structure Keeps (s s' : Bound ByteVec) : Prop where
  ctx : s.ctx.Spent s'.ctx
  within : s.obj.size ≤ s.ctx.limits.maxUnknownFieldBytes →
    s'.obj.size ≤ s.ctx.limits.maxUnknownFieldBytes

theorem Keeps.refl (s : Bound ByteVec) : Keeps s s := ⟨.refl _, id⟩

theorem Keeps.trans {s t u : Bound ByteVec} (h : Keeps s t) (h' : Keeps t u) : Keeps s u :=
  ⟨h.ctx.trans h'.ctx, fun hs => by
    have := h'.within
    rw [h.ctx.limits] at this
    exact this (h.within hs)⟩

instance : LawfulWriter (Bound ByteVec) where
  output s := s.obj.items
  Room := HasRoom
  Follows := Keeps
  follows_refl := .refl
  follows_trans := .trans
  room_mono hmn h := ⟨h.1, by have := h.2; omega⟩
  writeByte_exits b s := by
    change Exits (writeByte b s) _ _
    unfold writeByte
    by_cases hc : canWrite 1 s = true
    · simp only [hc, Bool.not_true, Bool.false_eq_true, if_false]
      refine (Vec.pushBack_exits (Nat.le_refl _) b s).mono ?_ ?_
      · rintro _ s' ⟨hs, hi⟩
        refine ⟨hi, ⟨hs, fun _ => ?_⟩, hasRoom_after hs hi⟩
        rw [Vec.size, hi, List.length_append]
        exact (canWrite_iff 1 s).mp hc
      · rintro e s' ⟨hs, ho, hr⟩
        exact ⟨by rw [ho], ⟨hs, by rw [ho]; exact id⟩, refused_not_room hr, refused_code hr⟩
    · simp only [hc, Bool.not_false, if_true]
      exact ⟨rfl, .refl s, fun h => hc ((canWrite_iff 1 s).mpr h.2), by simp [sizeLimit]⟩
  write_exits bs s := by
    change Exits (write bs s) _ _
    unfold write
    by_cases hc : canWrite bs.length s = true
    · have hlen := Nat.le_trans ((canWrite_iff _ s).mp hc) s.ctx.limits.maxUnknownFieldBytes_le
      simp only [hc, Bool.not_true, Bool.false_eq_true, if_false]
      refine (Vec.appendTrivialRange_exits (Nat.le_trans (Nat.le_add_left _ _) hlen)
        (Nat.le_refl _) s).mono ?_ ?_
      · rintro _ s' ⟨hs, hi⟩
        refine ⟨hi, ⟨hs, fun _ => ?_⟩, fun n => hasRoom_after hs hi n⟩
        rw [Vec.size, hi, List.length_append]
        exact (canWrite_iff _ s).mp hc
      · rintro e s' ⟨hs, ho, hr⟩
        exact ⟨by rw [ho], ⟨hs, by rw [ho]; exact id⟩, refused_not_room hr, refused_code hr⟩
    · simp only [hc, Bool.not_false, if_true]
      exact ⟨rfl, .refl s, fun h => hc ((canWrite_iff _ s).mpr h.2), by simp [sizeLimit]⟩

/-- `read_from`: the bytes go from the reader straight into the storage's new room. -/
def readFrom (count : ℕ) : ParseM ByteVec Unit := fun s =>
  if !canWrite count s.toBound then .error (sizeLimit s.toBound) s
  else if count = 0 then .ok () s
  else
    let oldSize := s.obj.size
    match onBound (Vec.resizeForOverwrite 0 (oldSize + count)) s with
    | .error e s => .error e s
    | .ok _ s => match onReader (Reader.read count) s with
      | .ok bytes s => .ok () { s with obj := s.obj.overwrite oldSize bytes }
      | .error e s => match onBound (Vec.resizeForOverwrite 0 oldSize) s with
        | .ok _ s | .error _ s => .error e s

end UnknownFieldWriter

/-- `UnknownFieldStorage::copy_from`, whose `maximum` is the destination's limit. -/
def copyUnknownFields (other : List UInt8) (maximum : ℕ) : BoundM ByteVec Unit := fun s =>
  if other.length > maximum then .error { code := .sizeLimit } s else Vec.assign other s

/-- `prepare_unknown_field_merge` into a fresh output. -/
def prepareUnknownFieldMerge (current addition : List UInt8) : BoundM ByteVec Unit := fun s =>
  match checkedAdd current.length addition.length with
  | .error e => .error e s
  | .ok total =>
    if total > s.ctx.limits.maxUnknownFieldBytes then .error { code := .sizeLimit } s
    else (do
      let (_, staged) ← onTemporary (Vec.empty : ByteVec) (do
        Vec.reserve total
        Vec.appendTrivialRange current
        Vec.appendTrivialRange addition)
      moveAssign staged) s

end Protocyte
