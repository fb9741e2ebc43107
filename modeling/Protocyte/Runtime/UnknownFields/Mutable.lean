import Protocyte.Runtime.UnknownFields.Storage

/-! Editing stored unknown fields. Every edit is offset arithmetic on the bytes that are being
decoded; the lemmas say what it does to the records there, and that a failure does nothing. -/
namespace Protocyte
open Foundation.Computation Foundation.Wire

/-- A span argument: bytes of the caller's, or a part of the storage that is edited. -/
inductive ByteSpan
  | external (bytes : List UInt8)
  | own (offset count : ℕ)

/-- The bytes a span denotes while the storage holds `storage`. -/
def ByteSpan.deref (storage : List UInt8) : ByteSpan → List UInt8
  | external bytes => bytes
  | own offset count => subspan storage offset count

namespace MutableUnknownFieldSet

def validFieldNumber (fieldNumber : ℕ) : Bool := fieldNumber ≠ 0 && fieldNumber ≤ 0x1FFFFFFF

/-- Appends in place; `fail` cuts the storage back. -/
def appendField (fieldNumber : ℕ) (wireType : WireType) (emit : BoundM ByteVec Unit) :
    BoundM ByteVec Unit := fun s =>
  if !validFieldNumber fieldNumber then .error { code := .invalidArgument, fieldNumber } s
  else match (do writeTag fieldNumber wireType; emit : BoundM ByteVec Unit) s with
    | .ok _ s' => .ok () s'
    | .error e s' => match Vec.resizeForOverwrite 0 s.obj.size s' with
      | .ok _ t | .error _ t => .error { e with offset := 0, fieldNumber } t

/-- Appends to a copy that replaces the storage in the end. -/
def appendFieldTransactional (fieldNumber : ℕ) (wireType : WireType)
    (emit : BoundM ByteVec Unit) : BoundM ByteVec Unit := fun s =>
  if !validFieldNumber fieldNumber then .error { code := .invalidArgument, fieldNumber } s
  else if s.obj.size > s.ctx.limits.maxUnknownFieldBytes then
    .error { code := .sizeLimit, fieldNumber } s
  else
    let build : BoundM ByteVec Unit := do
      let (_, output) ← onTemporary (Vec.empty : ByteVec) (do
        Vec.reserve s.obj.size
        Vec.appendTrivialRange s.obj.items
        writeTag fieldNumber wireType
        emit)
      moveAssign output
    match build s with
    | .ok _ s' => .ok () s'
    | .error e s' => .error { e with offset := 0, fieldNumber } s'

def addVarint (fieldNumber : ℕ) (value : UInt64) : BoundM ByteVec Unit :=
  appendField fieldNumber .varint (writeVarint value.toNat)

def addFixed32 (fieldNumber : ℕ) (value : UInt32) : BoundM ByteVec Unit :=
  appendField fieldNumber .i32 (writeFixed 4 value.toNat)

def addFixed64 (fieldNumber : ℕ) (value : UInt64) : BoundM ByteVec Unit :=
  appendField fieldNumber .i64 (writeFixed 8 value.toNat)

/-- The storage keeps its bytes until the copy replaces it, so a span into it does too. -/
def addLengthDelimited (fieldNumber : ℕ) (value : ByteSpan) : BoundM ByteVec Unit := fun s =>
  let bytes := value.deref s.obj.items
  appendFieldTransactional fieldNumber .len (do
    writeVarint bytes.length
    Writer.write bytes) s

def addGroup (fieldNumber : ℕ) (value : ByteSpan) : BoundM ByteVec Unit := fun s =>
  let bytes := value.deref s.obj.items
  if s.ctx.limits.maxRecursionDepth = 0 then .error { code := .recursionLimit, fieldNumber } s
  else
    appendFieldTransactional fieldNumber .sgroup (do
      writeCanonicalUnknownFields bytes (s.ctx.limits.maxRecursionDepth - 1)
      writeTag fieldNumber .egroup) s

def mergeFrom (value : ByteSpan) : BoundM ByteVec Unit := fun s =>
  let bytes := value.deref s.obj.items
  if bytes.isEmpty then .ok () s
  else if s.obj.size > s.ctx.limits.maxUnknownFieldBytes then .error { code := .sizeLimit } s
  else (do
    let (_, output) ← onTemporary (Vec.empty : ByteVec) (do
      Vec.reserve s.obj.size
      Vec.appendTrivialRange s.obj.items
      writeCanonicalUnknownFields bytes s.ctx.limits.maxRecursionDepth)
    moveAssign output : BoundM ByteVec Unit) s

def offsetForIndexLoop (bytes : List UInt8) (maxRecursionDepth index : ℕ) :
    ℕ → ℕ → ℕ → Except Error ℕ
  | 0, _, _ => throw { code := .diverged }
  | n + 1, current, offset =>
    if current < index ∧ offset < bytes.length then do
      let decoded ← decodeUnknownFieldAt bytes offset maxRecursionDepth
      offsetForIndexLoop bytes maxRecursionDepth index n (current + 1) decoded.nextOffset
    else if current ≠ index then throw { code := .invalidArgument }
    else return offset

def offsetForIndex (bytes : List UInt8) (maxRecursionDepth index : ℕ) : Except Error ℕ :=
  offsetForIndexLoop bytes maxRecursionDepth index (bytes.length + 1) 0 0

/-- `copy_bytes` within one buffer, which may overlap. -/
def copyBytes (destination source count : ℕ) (v : ByteVec) : ByteVec :=
  v.overwrite destination (subspan v.items source count)

def deleteSubrange (start count : ℕ) : BoundM ByteVec Unit := do
  let bytes := (← get).obj.items
  let maxRecursionDepth := (← get).ctx.limits.maxRecursionDepth
  if count = 0 then
    let _ ← ofExcept (offsetForIndex bytes maxRecursionDepth start)
  else
    let first ← ofExcept (offsetForIndex bytes maxRecursionDepth start)
    let lastIndex ← ofExcept (checkedAdd start count)
    let last ← ofExcept (offsetForIndex bytes maxRecursionDepth lastIndex)
    modify fun s => { s with obj := copyBytes first last (bytes.length - last) s.obj }
    Vec.resizeForOverwrite 0 (bytes.length - (last - first))

def erase (index : ℕ) : BoundM ByteVec Unit := deleteSubrange index 1

/-- The compaction loop decodes the very buffer it moves fields in. -/
def deleteByNumberLoop (fieldNumber maxRecursionDepth : ℕ) :
    ℕ → ByteVec → ℕ → ℕ → ℕ → ByteVec × ℕ × ℕ
  | 0, v, _, writeOffset, deleted => (v, writeOffset, deleted)
  | n + 1, v, readOffset, writeOffset, deleted =>
    if readOffset < v.size then
      match decodeUnknownFieldAt v.items readOffset maxRecursionDepth with
      | .error _ => (v, writeOffset, deleted)
      | .ok decoded =>
        let size := decoded.nextOffset - readOffset
        if decoded.field.fieldNumber = fieldNumber then
          deleteByNumberLoop fieldNumber maxRecursionDepth n v decoded.nextOffset writeOffset
            (deleted + 1)
        else
          deleteByNumberLoop fieldNumber maxRecursionDepth n (copyBytes writeOffset readOffset size v)
            decoded.nextOffset (writeOffset + size) deleted
    else (v, writeOffset, deleted)

def deleteByNumber (fieldNumber : ℕ) : BoundM ByteVec ℕ := do
  let s ← get
  let (v, writeOffset, deleted) := deleteByNumberLoop fieldNumber s.ctx.limits.maxRecursionDepth
    (s.obj.size + 1) s.obj 0 0 0
  set { s with obj := v }
  Vec.resizeForOverwrite 0 writeOffset
  return deleted

def replaceEncoded (index : ℕ) (replacement : List UInt8) : BoundM ByteVec Unit := do
  let s ← get
  let bytes := s.obj.items
  let first ← ofExcept (offsetForIndex bytes s.ctx.limits.maxRecursionDepth index)
  if first ≥ bytes.length then
    throw { code := .invalidArgument }
  else
    let decoded ← ofExcept (decodeUnknownFieldAt bytes first s.ctx.limits.maxRecursionDepth)
    let removed := decoded.nextOffset - first
    let total ← ofExcept (checkedAdd (bytes.length - removed) replacement.length)
    if total > s.ctx.limits.maxUnknownFieldBytes then
      throw { code := .sizeLimit }
    else
      let (_, output) ← onTemporary (Vec.empty : ByteVec) (do
        Vec.reserve total
        Vec.appendTrivialRange (subspan bytes 0 first)
        Vec.appendTrivialRange replacement
        Vec.appendTrivialRange (bytes.drop decoded.nextOffset))
      moveAssign output

/-- The replacement is built as a set of its own. -/
def replaceWith (index : ℕ) (build : BoundM ByteVec Unit) : BoundM ByteVec Unit := do
  let (_, replacement) ← onTemporary (Vec.empty : ByteVec) build
  replaceEncoded index replacement.items

def replaceVarint (index fieldNumber : ℕ) (value : UInt64) : BoundM ByteVec Unit :=
  replaceWith index (addVarint fieldNumber value)

def replaceFixed32 (index fieldNumber : ℕ) (value : UInt32) : BoundM ByteVec Unit :=
  replaceWith index (addFixed32 fieldNumber value)

def replaceFixed64 (index fieldNumber : ℕ) (value : UInt64) : BoundM ByteVec Unit :=
  replaceWith index (addFixed64 fieldNumber value)

def replaceLengthDelimited (index fieldNumber : ℕ) (value : ByteSpan) : BoundM ByteVec Unit :=
  fun s => replaceWith index
    (addLengthDelimited fieldNumber (.external (value.deref s.obj.items))) s

def replaceGroup (index fieldNumber : ℕ) (value : ByteSpan) : BoundM ByteVec Unit :=
  fun s => replaceWith index (addGroup fieldNumber (.external (value.deref s.obj.items))) s

def clear : BoundM ByteVec Unit := Vec.clear

def view (s : Bound ByteVec) : UnknownFieldRange := ⟨s.obj.items, s.ctx.limits.maxRecursionDepth⟩

def fieldCount (s : Bound ByteVec) : ℕ := (view s).fieldCount

/-- The storage goes from the records `ts` to `ts'`, keeping canonical form and the limit. -/
structure Evolves (s s' : Bound ByteVec) (ts ts' : List Tree) : Prop where
  records : Records (Body s.ctx.limits.maxRecursionDepth) s'.obj.items ts'
  canonical : s.obj.items = encodeAll ts → s'.obj.items = encodeAll ts'
  within : s.obj.size ≤ s.ctx.limits.maxUnknownFieldBytes →
    s'.obj.size ≤ s.ctx.limits.maxUnknownFieldBytes
  ctx : s.ctx.Spent s'.ctx

structure Untouched (s s' : Bound ByteVec) : Prop where
  items : s'.obj.items = s.obj.items
  ctx : s.ctx.Spent s'.ctx

variable {s : Bound ByteVec} {ts : List Tree}

/-- The storage decodes completely within its context's recursion limit. -/
abbrev Decodes (s : Bound ByteVec) (ts : List Tree) : Prop :=
  Records (Body s.ctx.limits.maxRecursionDepth) s.obj.items ts

theorem Untouched.refl (s : Bound ByteVec) : Untouched s s := ⟨rfl, .refl _⟩

theorem Evolves.append {s' : Bound ByteVec} {us : List Tree} (h : Decodes s ts)
    (hi : s'.obj.items = s.obj.items ++ encodeAll us)
    (hu : Records (Body s.ctx.limits.maxRecursionDepth) (encodeAll us) us)
    (hk : UnknownFieldWriter.Keeps s s') : Evolves s s' ts (ts ++ us) :=
  ⟨hi ▸ h.append hu, fun hc => by rw [hi, hc, encodeAll_append], hk.within, hk.ctx⟩

theorem validFieldNumber_iff (n : ℕ) : validFieldNumber n = true ↔ 0 < n ∧ n ≤ maxNumber := by
  simp [validFieldNumber, maxNumber, Nat.pos_iff_ne_zero]

theorem appendField_exits {f : ℕ} {w : WireType} {emit : BoundM ByteVec Unit} {t : Tree}
    (h : Decodes s ts) (hw : t.number = f ∧ t.code = w.code) (hemit : Writes emit t.body)
    (ht : Body s.ctx.limits.maxRecursionDepth f w.code t.body t) :
    Exits (appendField f w emit s) (fun _ s' => Evolves s s' ts (ts ++ [t]))
      (fun _ s' => Untouched s s') := by
  unfold appendField
  by_cases hv : validFieldNumber f = true
  · obtain ⟨hpos, hmax⟩ := (validFieldNumber_iff f).mp hv
    simp only [hv, Bool.not_true, Bool.false_eq_true, if_false]
    have hx : Writes (do writeTag f w; emit : BoundM ByteVec Unit) t.encode := by
      rw [Tree.encode, hw.1, hw.2]
      exact (writes_tag w hmax).bind hemit
    cases ho : (do writeTag f w; emit : BoundM ByteVec Unit) s with
    | ok u s' =>
      obtain ⟨hi, hk, -⟩ := (hx s).ok ho
      refine Evolves.append h ?_ ?_ hk
      · rw [encodeAll_singleton]; exact hi
      · rw [encodeAll_singleton]; exact ht.records hpos hmax
    | error e s' =>
      obtain ⟨⟨bs, hi⟩, hk, -⟩ := (hx s).error ho
      have hi' : s'.obj.items = s.obj.items ++ bs := hi
      have hback := Vec.resizeForOverwrite_shrink (0 : UInt8) (n := s.obj.size) (s := s')
        (by simp [Vec.size, hi'])
      simp only [hback]
      exact ⟨by simp [hi', Vec.size], hk.ctx⟩
  · simp only [hv, Bool.not_false, if_true]
    exact .refl s

theorem addVarint_exits (h : Decodes s ts) (f : ℕ) (v : UInt64) : Exits (addVarint f v s)
    (fun _ s' => Evolves s s' ts (ts ++ [.varint f v.toNat])) (fun _ s' => Untouched s s') :=
  appendField_exits h ⟨rfl, rfl⟩ (writes_varint v.toNat_lt)
    ((Leaf.varint (varint_encode v.toNat_lt)).body _)

theorem addFixed64_exits (h : Decodes s ts) (f : ℕ) (v : UInt64) : Exits (addFixed64 f v s)
    (fun _ s' => Evolves s s' ts (ts ++ [.fixed64 f v.toNat])) (fun _ s' => Untouched s s') :=
  appendField_exits h ⟨rfl, rfl⟩ (writes_fixed 8 _) ((leaf_fixed64 f v.toNat_lt).body _)

theorem addFixed32_exits (h : Decodes s ts) (f : ℕ) (v : UInt32) : Exits (addFixed32 f v s)
    (fun _ s' => Evolves s s' ts (ts ++ [.fixed32 f v.toNat])) (fun _ s' => Untouched s s') :=
  appendField_exits h ⟨rfl, rfl⟩ (writes_fixed 4 _) ((leaf_fixed32 f v.toNat_lt).body _)

/-- Work on a copy of the storage that replaces it in the end. -/
private theorem staged_exits {x : BoundM ByteVec Unit} {Q : Bound ByteVec → Prop}
    (hx : ∀ t : Bound ByteVec, s.ctx.Spent t.ctx → t.obj.items = s.obj.items →
      Exits (x t) (fun _ u => Q u) (fun _ u => t.ctx.Spent u.ctx)) :
    Exits ((do
      let (_, output) ← onTemporary (Vec.empty : ByteVec) (do
        Vec.reserve s.obj.size
        Vec.appendTrivialRange s.obj.items
        x)
      moveAssign output : BoundM ByteVec Unit) s) (fun _ s' => Q s') (fun _ s' => Untouched s s') := by
  have hbuild : Exits ((do
      Vec.reserve s.obj.size
      Vec.appendTrivialRange s.obj.items
      x : BoundM ByteVec Unit) { ctx := s.ctx, obj := Vec.empty })
      (fun _ u => Q u) (fun _ u => s.ctx.Spent u.ctx) := by
    refine Exits.bind ((Vec.reserve_exits _ _).mono (fun _ _ h => h) fun _ _ h => h.1) ?_
    rintro - t ⟨ht, hi, -⟩
    have hlen : s.obj.items.length ≤ usizeMax := s.obj.size_le
    refine Exits.bind ((Vec.appendTrivialRange_exits hlen (Nat.le_refl _) t).mono
      (fun _ _ h => h) fun _ _ h => ht.trans h.1) ?_
    rintro - u ⟨hu, hiu⟩
    have hsu := ht.trans hu
    exact (hx u hsu (by simpa [hi] using hiu)).mono (fun _ _ h => h) fun _ _ h => hsu.trans h
  refine Exits.bind ((onTemporary_exits hbuild).mono (fun _ _ h => h) ?_) ?_
  · rintro e s' ⟨⟨t, hs⟩, ho⟩
    exact ⟨by rw [ho], hs⟩
  · rintro ⟨⟨⟩, output⟩ s' ⟨hq, -⟩
    exact hq

/-- `emit` writes the body of a record of which `P` holds, or always fails. -/
private theorem appendFieldTransactional_exits {f : ℕ} {w : WireType} {emit : BoundM ByteVec Unit}
    {P : Tree → Prop} (h : Decodes s ts)
    (hemit : 0 < f → f ≤ maxNumber → (∃ t, P t ∧ t.number = f ∧ t.code = w.code ∧ Writes emit t.body ∧
        Body s.ctx.limits.maxRecursionDepth f w.code t.body t) ∨
      ∀ u, Exits (emit u) (fun _ _ => False) (fun _ u' => UnknownFieldWriter.Keeps u u')) :
    Exits (appendFieldTransactional f w emit s)
      (fun _ s' => ∃ t, P t ∧ Evolves s s' ts (ts ++ [t])) (fun _ s' => Untouched s s') := by
  unfold appendFieldTransactional
  by_cases hv : validFieldNumber f = true
  · obtain ⟨hpos, hmax⟩ := (validFieldNumber_iff f).mp hv
    simp only [hv, Bool.not_true, Bool.false_eq_true, if_false]
    by_cases hsize : s.obj.size > s.ctx.limits.maxUnknownFieldBytes
    · rw [if_pos hsize]
      exact .refl s
    rw [if_neg hsize]
    have hx : ∀ t : Bound ByteVec, s.ctx.Spent t.ctx → t.obj.items = s.obj.items →
        Exits ((do writeTag f w; emit : BoundM ByteVec Unit) t)
          (fun _ u => ∃ t, P t ∧ Evolves s u ts (ts ++ [t])) (fun _ u => t.ctx.Spent u.ctx) := by
      intro t hst hi
      rcases hemit hpos hmax with ⟨tree, hP, hn, hc, hwrites, hbody⟩ | hfails
      · have hwt : Writes (do writeTag f w; emit : BoundM ByteVec Unit) tree.encode := by
          rw [Tree.encode, hn, hc]
          exact (writes_tag w hmax).bind hwrites
        refine (hwt t).mono ?_ (fun _ _ hu => hu.2.1.ctx)
        rintro - u ⟨hiu, hk, -⟩
        have hku : UnknownFieldWriter.Keeps t u := hk
        have hiu' : u.obj.items = t.obj.items ++ tree.encode := hiu
        refine ⟨tree, hP, Evolves.append h ?_ ?_ ⟨hst.trans hku.ctx, fun hs => ?_⟩⟩
        · rw [hiu', hi, encodeAll_singleton]
        · rw [encodeAll_singleton]; exact hbody.records hpos hmax
        · have := hku.within
          simp only [Vec.size, hi, hst.limits] at this hs ⊢
          exact this hs
      · refine Exits.bind ((writes_tag w hmax t).mono (fun _ _ h => h) fun _ _ hu => hu.2.1.ctx) ?_
        rintro - u ⟨-, hk, -⟩
        exact (hfails u).mono (fun _ _ hf => hf.elim) fun _ _ hu => hk.ctx.trans hu.ctx
    have hstaged := staged_exits hx
    split
    · exact hstaged.ok ‹_›
    · exact hstaged.error ‹_›
  · simp only [hv, Bool.not_false, if_true]
    exact .refl s

theorem addLengthDelimited_exits (h : Decodes s ts) (f : ℕ) (value : ByteSpan) :
    Exits (addLengthDelimited f value s)
      (fun _ s' => Evolves s s' ts (ts ++ [.bytes f (value.deref s.obj.items)]))
      (fun _ s' => Untouched s s') := by
  unfold addLengthDelimited
  refine (appendFieldTransactional_exits
    (P := fun t => t = .bytes f (value.deref s.obj.items)) h fun _ _ => ?_).mono ?_ (fun _ _ h => h)
  · by_cases hl : (value.deref s.obj.items).length < 2 ^ 64
    · exact Or.inl ⟨_, rfl, rfl, rfl, (writes_varint hl).bind (.bytes _),
        (Leaf.bytes (varint_encode hl)).body _⟩
    · refine Or.inr fun u => Exits.bind ((writeVarint_follows _ u).mono (fun _ _ h => h)
        fun _ _ h => h.1) fun _ v hv => ?_
      have hw := LawfulWriter.write_exits (value.deref s.obj.items) v
      refine Exits.intro (fun _ u' hu => ?_) fun _ u' hu => ?_
      · have hmax : v.ctx.limits.maxUnknownFieldBytes ≤ 2 ^ 64 - 1 :=
          v.ctx.limits.maxUnknownFieldBytes_le
        have hok : UnknownFieldWriter.write (value.deref s.obj.items) v = .ok () u' := hu
        by_cases hc : UnknownFieldWriter.canWrite (value.deref s.obj.items).length v = true
        · have := (UnknownFieldWriter.canWrite_iff _ v).mp hc
          omega
        · simp [UnknownFieldWriter.write, hc] at hok
      · exact UnknownFieldWriter.Keeps.trans hv (hw.error hu).2.1
  · rintro - s' ⟨t, rfl, hev⟩
    exact hev

theorem addGroup_exits (h : Decodes s ts) (f : ℕ) (value : ByteSpan) :
    Exits (addGroup f value s)
      (fun _ s' => ∃ us, Records (Body (s.ctx.limits.maxRecursionDepth - 1))
        (value.deref s.obj.items) us ∧ Evolves s s' ts (ts ++ [.group f us]))
      (fun _ s' => Untouched s s') := by
  unfold addGroup
  by_cases hd : s.ctx.limits.maxRecursionDepth = 0
  · simp only [if_pos hd]
    exact .refl s
  simp only [if_neg hd]
  obtain ⟨d, hd⟩ : ∃ d, s.ctx.limits.maxRecursionDepth = d + 1 := ⟨_, (Nat.succ_pred hd).symm⟩
  refine (appendFieldTransactional_exits (P := fun t => ∃ us, Records (Body d)
    (value.deref s.obj.items) us ∧ t = .group f us) h fun hpos hf => ?_).mono ?_
      (fun _ _ h => h)
  · rw [hd, Nat.add_sub_cancel]
    by_cases hus : ∃ us, Records (Body d) (value.deref s.obj.items) us
    · obtain ⟨us, hus⟩ := hus
      refine Or.inl ⟨.group f us, ⟨us, hus, rfl⟩, rfl, rfl, ?_, ?_⟩
      · simp only [Tree.body]
        exact (writes_canonical hus).bind (writes_tag .egroup hf)
      · refine Or.inr ⟨rfl, us, rfl, members_iff.mpr ⟨encodeAll us, key f 4, by simp [Tree.body],
          hus.canonical (body_canonical d), key_canonical hpos hf (by decide)⟩⟩
    · refine Or.inr fun u => Exits.bind (Q := fun _ _ => False) ?_ (fun _ _ hf => hf.elim)
      refine Exits.intro (fun _ u' hu => hus ?_) fun e u' hu => ?_
      · exact writeCanonicalUnknownFields_sound hu
      · exact (writeCanonicalUnknownFields_follows _ d u).error hu
  · rintro - s' ⟨t, ⟨us, hus, rfl⟩, hev⟩
    exact ⟨us, by rw [hd, Nat.add_sub_cancel]; exact hus, hev⟩

theorem mergeFrom_exits (h : Decodes s ts) (value : ByteSpan) : Exits (mergeFrom value s)
    (fun _ s' => ∃ us, Records (Body s.ctx.limits.maxRecursionDepth) (value.deref s.obj.items) us ∧
      Evolves s s' ts (ts ++ us))
    (fun _ s' => Untouched s s') := by
  unfold mergeFrom
  cases hb : value.deref s.obj.items with
  | nil =>
    simp only [List.isEmpty_nil, if_true]
    exact ⟨[], .nil, by simpa using h, by simp, id, .refl _⟩
  | cons b bs =>
    simp only [List.isEmpty_cons, Bool.false_eq_true, if_false]
    rw [← hb]
    by_cases hsize : s.obj.size > s.ctx.limits.maxUnknownFieldBytes
    · rw [if_pos hsize]
      exact .refl s
    rw [if_neg hsize]
    refine staged_exits fun t hst hi => Exits.intro (fun _ u hu => ?_) fun e u hu => ?_
    · obtain ⟨us, hus⟩ := writeCanonicalUnknownFields_sound hu
      obtain ⟨hiu, hk, -⟩ := (writes_canonical hus t).ok hu
      have hku : UnknownFieldWriter.Keeps t u := hk
      have hiu' : u.obj.items = t.obj.items ++ encodeAll us := hiu
      refine ⟨us, hus, Evolves.append h (by rw [hiu', hi]) (hus.canonical (body_canonical _))
        ⟨hst.trans hku.ctx, fun hs => ?_⟩⟩
      have := hku.within
      simp only [Vec.size, hi, hst.limits] at this hs ⊢
      exact this hs
    · exact ((writeCanonicalUnknownFields_follows _ _ t).error hu).ctx

private theorem offsetForIndexLoop_ok {bytes : List UInt8} {d i n c o : ℕ} {ts : List Tree}
    (h : Records (Body d) (bytes.drop o) ts) (hn : (bytes.drop o).length < n) (hc : c ≤ i)
    (ho : o ≤ bytes.length) (hi : i - c ≤ ts.length) :
    ∃ p, offsetForIndexLoop bytes d i n c o = .ok p ∧ o ≤ p ∧ p ≤ bytes.length ∧
      Records (Body d) (subspan bytes o (p - o)) (ts.take (i - c)) ∧
      Records (Body d) (bytes.drop p) (ts.drop (i - c)) := by
  induction ts generalizing n c o with
  | nil =>
    obtain ⟨n, rfl⟩ : ∃ j, n = j + 1 := ⟨n - 1, by omega⟩
    obtain rfl : c = i := by simp at hi; omega
    rw [offsetForIndexLoop, if_neg (by omega), if_neg (by simp)]
    exact ⟨o, rfl, Nat.le_refl _, ho, by simpa [subspan] using Records.nil, by simpa using h⟩
  | cons t ts ih =>
    obtain ⟨n, rfl⟩ : ∃ j, n = j + 1 := ⟨n - 1, by omega⟩
    obtain ⟨r, hr, hts⟩ := shown_of_records h
    have hlt := hr.length_lt
    by_cases hci : c = i
    · subst hci
      rw [offsetForIndexLoop, if_neg (by omega), if_neg (by simp)]
      exact ⟨o, rfl, Nat.le_refl _, ho, by simpa [subspan] using Records.nil, by simpa using h⟩
    · obtain ⟨k, hk⟩ : ∃ k, i - c = k + 1 := ⟨i - c - 1, by omega⟩
      have hk' : i - (c + 1) = k := by omega
      have hle := hr.encoded_length_le
      have hnext := hr.next
      rw [List.length_drop] at hle
      rw [hk, List.length_cons] at hi
      obtain ⟨p, hp, hop, hpl, htake, hdrop⟩ := ih (c := c + 1) (n := n) hts (by omega) (by omega)
        (by omega) (by omega)
      rw [hk'] at htake hdrop
      rw [offsetForIndexLoop, if_pos ⟨by omega, hr.lt_length⟩, except_bind_of_ok hr.decoded, hk]
      refine ⟨p, hp, by omega, hpl, ?_, by simpa using hdrop⟩
      have hsplit : subspan bytes o (p - o) =
          r.field.encoded ++ subspan bytes r.nextOffset (p - r.nextOffset) := by
        have hpo : p - o = r.field.encoded.length + (p - r.nextOffset) := by omega
        rw [subspan, hr.split, hpo, List.take_length_add_append, subspan]
      rw [hsplit, List.take_succ_cons]
      exact hr.record.append htake

private theorem offsetForIndexLoop_error {bytes : List UInt8} {d i n c o : ℕ} {ts : List Tree}
    (h : Records (Body d) (bytes.drop o) ts) (hn : (bytes.drop o).length < n) (hc : c ≤ i)
    (hi : ts.length < i - c) : ∃ e, offsetForIndexLoop bytes d i n c o = .error e := by
  induction ts generalizing n c o with
  | nil =>
    obtain ⟨n, rfl⟩ : ∃ j, n = j + 1 := ⟨n - 1, by omega⟩
    have hend := records_nil_iff.mp h
    simp only [List.length_nil] at hi
    rw [offsetForIndexLoop, if_neg (by omega), if_pos (by omega)]
    exact ⟨_, rfl⟩
  | cons t ts ih =>
    obtain ⟨n, rfl⟩ : ∃ j, n = j + 1 := ⟨n - 1, by omega⟩
    obtain ⟨r, hr, hts⟩ := shown_of_records h
    have hlt := hr.length_lt
    simp only [List.length_cons] at hi
    rw [offsetForIndexLoop, if_pos ⟨by omega, hr.lt_length⟩, except_bind_of_ok hr.decoded]
    exact ih hts (by omega) (by omega) (by omega)

theorem offsetForIndex_ok {bytes : List UInt8} {d i : ℕ} (h : Records (Body d) bytes ts)
    (hi : i ≤ ts.length) : ∃ p, offsetForIndex bytes d i = .ok p ∧ p ≤ bytes.length ∧
      Records (Body d) (bytes.take p) (ts.take i) ∧ Records (Body d) (bytes.drop p) (ts.drop i) := by
  obtain ⟨p, hp, -, hpl, htake, hdrop⟩ := offsetForIndexLoop_ok (o := 0) (c := 0)
    (by simpa using h) (by simp : _ < bytes.length + 1) (Nat.zero_le i) (Nat.zero_le _) hi
  exact ⟨p, hp, hpl, by simpa [subspan] using htake, hdrop⟩

theorem offsetForIndex_error {bytes : List UInt8} {d i : ℕ} (h : Records (Body d) bytes ts)
    (hi : ts.length < i) : ∃ e, offsetForIndex bytes d i = .error e :=
  offsetForIndexLoop_error (o := 0) (c := 0) (by simpa using h) (by simp) (Nat.zero_le i) hi

/-- Closing a gap by moving the tail down and cutting the end off. -/
private theorem closed_gap {v : ByteVec} {p q : ℕ} (hpq : p ≤ q) (hq : q ≤ v.size) :
    ((copyBytes p q (v.size - q) v).truncate (v.size - (q - p))).items =
      v.items.take p ++ v.items.drop q := by
  have hc : subspan v.items q (v.size - q) = v.items.drop q := by
    rw [subspan, List.take_of_length_le (by simp)]
  have hl : (v.items.take p ++ v.items.drop q).length = v.size - (q - p) := by
    have : p ≤ v.items.length := Nat.le_trans hpq hq
    simp only [List.length_append, List.length_take, List.length_drop, Vec.size] at hq ⊢
    omega
  simp only [copyBytes, Vec.truncate_items, Vec.overwrite, hc, List.take_take]
  rw [Nat.min_eq_left (Nat.sub_le _ _), List.take_left' hl]

theorem Evolves.of_parts {s' : Bound ByteVec} {xs ys zs : List UInt8} {ts us vs : List Tree}
    (hs : s.obj.items = xs ++ (ys ++ zs)) (hx : Records (Body s.ctx.limits.maxRecursionDepth) xs ts)
    (hy : Records (Body s.ctx.limits.maxRecursionDepth) ys us)
    (hz : Records (Body s.ctx.limits.maxRecursionDepth) zs vs) {ys' : List UInt8} {us' : List Tree}
    (hs' : s'.obj.items = xs ++ (ys' ++ zs))
    (hy' : Records (Body s.ctx.limits.maxRecursionDepth) ys' us') (hc : ys' = encodeAll us')
    (hw : s.obj.size ≤ s.ctx.limits.maxUnknownFieldBytes →
      s'.obj.size ≤ s.ctx.limits.maxUnknownFieldBytes) (hctx : s.ctx.Spent s'.ctx) :
    Evolves s s' (ts ++ (us ++ vs)) (ts ++ (us' ++ vs)) := by
  refine ⟨hs' ▸ hx.append (hy'.append hz), fun hcan => ?_, hw, hctx⟩
  have hB := body_canonical s.ctx.limits.maxRecursionDepth
  rw [hs] at hcan
  obtain ⟨hxc, hrest⟩ := hx.canonical_parts hB (hy.append hz) hcan
  obtain ⟨-, hzc⟩ := hy.canonical_parts hB hz hrest
  rw [hs', hxc, hzc, hc, encodeAll_append, encodeAll_append]

theorem deleteSubrange_exits (h : Decodes s ts) {start count : ℕ} (hstart : start ≤ usizeMax)
    (hcount : count ≤ usizeMax) : Exits (deleteSubrange start count s)
      (fun _ s' => start + count ≤ ts.length ∧
        Evolves s s' ts (ts.take start ++ ts.drop (start + count)))
      (fun _ s' => ts.length < start + count ∧ Untouched s s') := by
  have hB := body_canonical s.ctx.limits.maxRecursionDepth
  have hlen : ts.length ≤ usizeMax := Nat.le_trans h.length_trees_le s.obj.size_le
  unfold deleteSubrange
  rw [bind_of_ok (get_apply s), bind_of_ok (get_apply s)]
  refine Exits.ite (fun h0 => ?_) fun h0 => ?_
  · subst h0
    by_cases hle : start ≤ ts.length
    · obtain ⟨p, hp, -⟩ := offsetForIndex_ok h hle
      rw [ofExcept_bind hp]
      exact ⟨hle, by simpa using h, by simp, id, .refl _⟩
    · obtain ⟨e, he⟩ := offsetForIndex_error h (Nat.lt_of_not_le hle)
      rw [he]
      exact ⟨Nat.lt_of_not_le hle, .refl s⟩
  by_cases hle : start ≤ ts.length
  swap
  · obtain ⟨e, he⟩ := offsetForIndex_error h (Nat.lt_of_not_le hle)
    rw [he]
    exact ⟨by omega, .refl s⟩
  obtain ⟨p, hp, hpl, hpx, hpd⟩ := offsetForIndex_ok h hle
  rw [ofExcept_bind hp]
  by_cases hover : start + count ≤ usizeMax
  swap
  · rw [checkedAdd_of_gt hstart hcount (Nat.lt_of_not_le hover)]
    exact ⟨by omega, .refl s⟩
  rw [ofExcept_bind (checkedAdd_of_le hover)]
  by_cases hle' : start + count ≤ ts.length
  swap
  · obtain ⟨e, he⟩ := offsetForIndex_error h (Nat.lt_of_not_le hle')
    rw [he]
    exact ⟨Nat.lt_of_not_le hle', .refl s⟩
  obtain ⟨q, hq, hql, hqx, hqd⟩ := offsetForIndex_ok h hle'
  rw [ofExcept_bind hq]
  -- the records between the two offsets
  have hsplit : ts.drop start = (ts.drop start).take count ++ ts.drop (start + count) := by
    rw [← List.drop_drop, List.take_append_drop]
  rw [hsplit] at hpd
  obtain ⟨ys, zs, hyz, hys, hzs⟩ := hpd.split
  have hcat : (s.obj.items.take p ++ ys) ++ zs = s.obj.items.take q ++ s.obj.items.drop q := by
    rw [List.append_assoc, ← hyz, List.take_append_drop, List.take_append_drop]
  have htake : s.obj.items.take p ++ ys = s.obj.items.take q := by
    rw [List.take_add] at hqx
    exact (hpx.append hys).prefix_unique hB hqx hcat
  have hzq : zs = s.obj.items.drop q := by
    rw [htake] at hcat
    exact List.append_cancel_left hcat
  have hpq : p ≤ q := by
    have := congrArg List.length htake
    simp only [List.length_append, List.length_take] at this
    omega
  rw [bind_of_ok (modify_apply _ s)]
  have hgap := closed_gap hpq (show q ≤ s.obj.size from hql)
  have hcopy : (copyBytes p q (s.obj.items.length - q) s.obj).size = s.obj.size := by
    have := congrArg List.length hgap
    simp only [copyBytes, Vec.overwrite, Vec.size, Vec.truncate_items, subspan, List.length_take,
      List.length_append, List.length_drop] at this ⊢
    omega
  rw [Vec.resizeForOverwrite_shrink 0 (by rw [hcopy]; exact Nat.sub_le _ _)]
  refine ⟨hle', ?_⟩
  have hev : Evolves s { s with
      obj := (copyBytes p q (s.obj.size - q) s.obj).truncate (s.obj.size - (q - p)) }
      (ts.take start ++ ((ts.drop start).take count ++ ts.drop (start + count)))
      (ts.take start ++ ([] ++ ts.drop (start + count))) :=
    Evolves.of_parts (by rw [← hyz, List.take_append_drop]) hpx hys hzs (hzq ▸ hgap) .nil
      encodeAll_nil.symm (Nat.le_trans (by simp [Vec.size, List.length_take])) (.refl _)
  rw [← hsplit, List.take_append_drop] at hev
  exact hev

theorem erase_exits (h : Decodes s ts) {index : ℕ} (hi : index ≤ usizeMax) :
    Exits (erase index s)
      (fun _ s' => index < ts.length ∧ Evolves s s' ts (ts.eraseIdx index))
      (fun _ s' => ts.length ≤ index ∧ Untouched s s') := by
  refine (deleteSubrange_exits h hi (by decide)).mono ?_ ?_
  · rintro - s' ⟨hle, hev⟩
    rw [List.eraseIdx_eq_take_drop_succ]
    exact ⟨hle, hev⟩
  · rintro - s' ⟨hlt, hu⟩
    exact ⟨Nat.lt_succ_iff.mp hlt, hu⟩

/-- A copy that is not to the right keeps what is before and what is after it. -/
private theorem copyBytes_left {v : ByteVec} {w r n : ℕ} (hwr : w ≤ r) (hr : r + n ≤ v.size) :
    (copyBytes w r n v).size = v.size ∧
      (copyBytes w r n v).items.take (w + n) = v.items.take w ++ subspan v.items r n ∧
      (copyBytes w r n v).items.drop (r + n) = v.items.drop (r + n) := by
  have hn : (subspan v.items r n).length = n := by
    simp only [subspan, List.length_take, List.length_drop, Vec.size] at hr ⊢
    omega
  have hw : (v.items.take w).length = w := by
    simp only [List.length_take, Vec.size] at hr ⊢
    omega
  have hitems : (copyBytes w r n v).items =
      v.items.take w ++ subspan v.items r n ++ v.items.drop (w + n) := by
    simp only [copyBytes, Vec.overwrite, hn]
    refine List.take_of_length_le ?_
    simp only [List.length_append, hw, hn, List.length_drop, Vec.size] at hr ⊢
    omega
  have hl : (v.items.take w ++ subspan v.items r n).length = w + n := by
    rw [List.length_append, hw, hn]
  refine ⟨?_, ?_, ?_⟩
  · simp only [Vec.size, hitems, List.length_append, hw, hn, List.length_drop] at hr ⊢
    omega
  · rw [hitems, List.take_left' hl]
  · obtain ⟨k, rfl⟩ := Nat.exists_eq_add_of_le hwr
    rw [hitems, show w + k + n = (w + n) + k from by omega, ← List.drop_drop, List.drop_left' hl,
      List.drop_drop]

/-- The kept records `ts` of the part still to be read follow those kept before. -/
private theorem deleteByNumberLoop_spec (k d : ℕ) {n : ℕ} {v : ByteVec} {r w c : ℕ}
    {ts : List Tree} (h : Records (Body d) (v.items.drop r) ts)
    (hn : (v.items.drop r).length < n) (hw : w ≤ r) (hr : r ≤ v.size) :
    ∃ v' ys, deleteByNumberLoop k d n v r w c =
        (v', w + ys.length, c + (ts.filter (fun t => t.number = k)).length) ∧
      v'.size = v.size ∧ w + ys.length ≤ v.size ∧
      v'.items.take (w + ys.length) = v.items.take w ++ ys ∧
      Records (Body d) ys (ts.filter (fun t => t.number ≠ k)) ∧
      (v.items.drop r = encodeAll ts → ys = encodeAll (ts.filter (fun t => t.number ≠ k))) := by
  have hB := body_canonical d
  induction ts generalizing n v r w c with
  | nil =>
    obtain ⟨n, rfl⟩ : ∃ j, n = j + 1 := ⟨n - 1, by omega⟩
    have hend : v.size ≤ r := records_nil_iff.mp h
    rw [deleteByNumberLoop, if_neg (by omega)]
    exact ⟨v, [], by simp, rfl, by simp; omega, by simp, .nil, by simp⟩
  | cons t ts ih =>
    obtain ⟨n, rfl⟩ : ∃ j, n = j + 1 := ⟨n - 1, by omega⟩
    obtain ⟨x, hx, hts⟩ := shown_of_records h
    have hlt := hx.length_lt
    have hsize : x.nextOffset - r = x.field.encoded.length := by rw [hx.next]; omega
    have hnext : x.nextOffset ≤ v.size := hx.next_le
    have hrn : r ≤ x.nextOffset := by rw [hx.next]; omega
    have hparts : v.items.drop r = encodeAll (t :: ts) →
        x.field.encoded = t.encode ∧ v.items.drop x.nextOffset = encodeAll ts := by
      intro hc
      rw [hx.split] at hc
      obtain ⟨h₁, h₂⟩ := hx.record.canonical_parts hB hts hc
      exact ⟨h₁.trans (encodeAll_singleton t), h₂⟩
    rw [deleteByNumberLoop, if_pos (show r < v.size from hx.lt_length), hx.decoded]
    simp only [hx.fieldNumber]
    by_cases hk : t.number = k
    · rw [if_pos hk]
      obtain ⟨v', ys, he, hs, hwl, ht, hrec, hcan⟩ :=
        ih (n := n) (v := v) (w := w) (c := c + 1) hts (by omega) (by omega) hnext
      refine ⟨v', ys, ?_, hs, hwl, ht, by simpa [hk] using hrec, fun hc => ?_⟩
      · rw [he]
        simp [hk, Nat.add_assoc, Nat.add_comm]
      · simpa [hk] using hcan (hparts hc).2
    · rw [if_neg hk, hsize]
      obtain ⟨hcs, hct, hcd⟩ := copyBytes_left (n := x.field.encoded.length) hw
        (by rw [← hx.next]; exact hnext)
      rw [← hx.next] at hcd
      have henc : subspan v.items r x.field.encoded.length = x.field.encoded := by
        rw [subspan, hx.split, List.take_left]
      rw [henc] at hct
      obtain ⟨v', ys, he, hs, hwl, ht, hrec, hcan⟩ :=
        ih (n := n) (v := copyBytes w r x.field.encoded.length v)
          (w := w + x.field.encoded.length) (c := c) (hcd.symm ▸ hts)
          (by rw [hcd]; omega) (by rw [hx.next]; omega) (by rw [hcs]; exact hnext)
      refine ⟨v', x.field.encoded ++ ys, ?_, hs.trans hcs, ?_, ?_, ?_, fun hc => ?_⟩
      · rw [he]
        simp [hk, Nat.add_assoc]
      · rw [hcs] at hwl
        simp only [List.length_append]
        omega
      · rw [List.length_append, ← Nat.add_assoc, ht, hct, List.append_assoc]
      · simpa [hk] using hx.record.append hrec
      · obtain ⟨h₁, h₂⟩ := hparts hc
        rw [h₁, hcan (hcd.trans h₂)]
        simp [hk, encodeAll_cons]

theorem deleteByNumber_exits (h : Decodes s ts) (k : ℕ) : Exits (deleteByNumber k s)
    (fun deleted s' => deleted = (ts.filter (fun t => t.number = k)).length ∧
      Evolves s s' ts (ts.filter (fun t => t.number ≠ k)))
    (fun _ _ => False) := by
  obtain ⟨v', ys, he, hs, hwl, ht, hrec, hcan⟩ :=
    deleteByNumberLoop_spec k s.ctx.limits.maxRecursionDepth (n := s.obj.size + 1) (v := s.obj)
      (r := 0) (w := 0) (c := 0) (by simpa using h) (by simp) (Nat.le_refl 0) (Nat.zero_le _)
  simp only [Nat.zero_add, List.take_zero, List.nil_append] at he hwl ht
  unfold deleteByNumber
  rw [bind_of_ok (get_apply s), he]
  simp only
  rw [bind_of_ok (set_apply _ s), bind_of_ok (Vec.resizeForOverwrite_shrink 0 (by rw [hs]; exact hwl))]
  refine ⟨rfl, ?_, fun hc => ?_, fun hm => ?_, .refl _⟩
  · simpa [ht] using hrec
  · simpa [ht] using hcan hc
  · exact Nat.le_trans (by simpa [Vec.size, ht] using hwl) hm

theorem replaceEncoded_exits (h : Decodes s ts) (index : ℕ) {t : Tree}
    (ht : Records (Body s.ctx.limits.maxRecursionDepth) t.encode [t])
    (hlen : t.encode.length ≤ usizeMax) : Exits (replaceEncoded index t.encode s)
      (fun _ s' => index < ts.length ∧ Evolves s s' ts (ts.set index t))
      (fun _ s' => Untouched s s') := by
  unfold replaceEncoded
  rw [bind_of_ok (get_apply s)]
  simp only
  by_cases hi : index ≤ ts.length
  swap
  · obtain ⟨e, he⟩ := offsetForIndex_error h (Nat.lt_of_not_le hi)
    rw [he]
    exact .refl s
  obtain ⟨p, hp, hpl, hpx, hpd⟩ := offsetForIndex_ok h hi
  rw [ofExcept_bind hp]
  refine Exits.ite (fun _ => .refl s) fun hlt => ?_
  have hlt' : index < ts.length := by
    rcases Nat.lt_or_ge index ts.length with hl | hl
    · exact hl
    · rw [List.drop_eq_nil_of_le hl] at hpd
      exact absurd (records_nil_iff.mp hpd) hlt
  rw [List.drop_eq_getElem_cons hlt'] at hpd
  obtain ⟨x, hx, hrest⟩ := shown_of_records hpd
  rw [ofExcept_bind hx.decoded]
  have hnext := hx.next_le
  have hsize := s.obj.size_le
  have hpart : ∀ bs : List UInt8, bs.length ≤ usizeMax → ∀ u : Bound ByteVec, s.ctx.Spent u.ctx →
      Exits (Vec.appendTrivialRange bs u)
        (fun _ u' => s.ctx.Spent u'.ctx ∧ u'.obj.items = u.obj.items ++ bs)
        (fun _ u' => s.ctx.Spent u'.ctx) := by
    intro bs hbs u hu
    refine (Vec.appendTrivialRange_exits hbs (Nat.le_refl _) u).mono ?_ ?_
    · exact fun _ u' h => ⟨hu.trans h.1, h.2⟩
    · exact fun _ u' h => hu.trans h.1
  by_cases hsum : s.obj.items.length - (x.nextOffset - p) + t.encode.length ≤ usizeMax
  swap
  · rw [checkedAdd_of_gt (Nat.le_trans (Nat.sub_le _ _) hsize) hlen (Nat.lt_of_not_le hsum)]
    exact .refl s
  rw [ofExcept_bind (checkedAdd_of_le hsum)]
  refine Exits.ite (fun _ => .refl s) fun hmax => ?_
  generalize htotal : s.obj.items.length - (x.nextOffset - p) + t.encode.length = total at hmax
  have hbuild : Exits ((do
      Vec.reserve total
      Vec.appendTrivialRange (subspan s.obj.items 0 p)
      Vec.appendTrivialRange t.encode
      Vec.appendTrivialRange (s.obj.items.drop x.nextOffset) : BoundM ByteVec Unit)
        { ctx := s.ctx, obj := Vec.empty })
      (fun _ u => s.ctx.Spent u.ctx ∧
        u.obj.items = s.obj.items.take p ++ (t.encode ++ s.obj.items.drop x.nextOffset))
      (fun _ u => s.ctx.Spent u.ctx) := by
    refine Exits.bind ((Vec.reserve_exits _ _).mono (fun _ _ h => h) fun _ _ h => h.1) ?_
    rintro - u ⟨hu, hiu, -⟩
    refine Exits.bind (hpart (subspan s.obj.items 0 p) ?_ u hu) ?_
    · exact Nat.le_trans (by simp [subspan]) hsize
    rintro - u' ⟨hu', hiu'⟩
    refine Exits.bind (hpart t.encode hlen u' hu') ?_
    rintro - v ⟨hv, hiv⟩
    refine (hpart (s.obj.items.drop x.nextOffset) ?_ v hv).mono ?_ (fun _ _ h => h)
    · exact Nat.le_trans (by simp) hsize
    · rintro - v' ⟨hv', hiv'⟩
      exact ⟨hv', by rw [hiv', hiv, hiu', hiu]; simp [subspan]⟩
  refine Exits.bind ((onTemporary_exits hbuild).mono (fun _ _ h => h) ?_) ?_
  · rintro e s' ⟨⟨u, hs⟩, ho⟩
    exact ⟨by rw [ho], hs⟩
  rintro ⟨⟨⟩, output⟩ s' ⟨⟨hctx, hitems⟩, -⟩
  refine ⟨hlt', ?_⟩
  have hparts : s.obj.items =
      s.obj.items.take p ++ (x.field.encoded ++ s.obj.items.drop x.nextOffset) := by
    rw [← hx.split, List.take_append_drop]
  have hev : Evolves s { s' with obj := output }
      (ts.take index ++ ([ts[index]] ++ ts.drop (index + 1)))
      (ts.take index ++ ([t] ++ ts.drop (index + 1))) := by
    refine Evolves.of_parts hparts hpx hx.record hrest hitems ht (encodeAll_singleton t).symm
      (fun _ => ?_) hctx
    have hpn := hx.next
    have hlen' := congrArg List.length hitems
    simp only [List.length_append, List.length_take, List.length_drop] at hlen'
    simp only [Vec.size]
    omega
  have hset : ts.set index t = ts.take index ++ t :: ts.drop (index + 1) := by
    rw [List.set_eq_take_append_cons_drop, if_pos hlt']
  rw [List.singleton_append, List.singleton_append, ← List.drop_eq_getElem_cons hlt',
    List.take_append_drop, ← hset] at hev
  exact hev

/-- `build` adds one record, of which `P` holds, to an empty set. -/
theorem replaceWith_exits (h : Decodes s ts) (index : ℕ) {build : BoundM ByteVec Unit}
    {P : Tree → Prop} (hbuild : Exits (build { ctx := s.ctx, obj := Vec.empty })
      (fun _ u => ∃ t, P t ∧ Evolves { ctx := s.ctx, obj := Vec.empty } u [] [t])
      (fun _ u => Untouched { ctx := s.ctx, obj := Vec.empty } u)) :
    Exits (replaceWith index build s)
      (fun _ s' => index < ts.length ∧ ∃ t, P t ∧ Evolves s s' ts (ts.set index t))
      (fun _ s' => Untouched s s') := by
  unfold replaceWith
  refine Exits.bind ((onTemporary_exits hbuild).mono (fun _ _ h => h) ?_) ?_
  · rintro e s' ⟨⟨u, hu⟩, ho⟩
    exact ⟨by rw [ho], hu.ctx⟩
  rintro ⟨⟨⟩, replacement⟩ u ⟨⟨t, hP, hev⟩, ho⟩
  have hcan : replacement.items = t.encode := by
    have := hev.canonical (by simp)
    rwa [encodeAll_singleton] at this
  have hlim := hev.ctx.limits
  have hrec := hev.records
  simp only [hcan] at hrec
  simp only [hcan]
  have hdec : Decodes u ts := by
    unfold Decodes
    rw [ho, hlim]
    exact h
  refine (replaceEncoded_exits hdec index (hlim ▸ hrec) (hcan ▸ replacement.size_le)).mono ?_ ?_
  · rintro - s' ⟨hi, hev'⟩
    refine ⟨hi, t, hP, ?_, ?_, ?_, hev.ctx.trans hev'.ctx⟩
    · exact hlim ▸ hev'.records
    · exact ho ▸ hev'.canonical
    · have := hev'.within
      rw [ho, hlim] at this
      exact this
  · rintro - s' hu
    exact ⟨hu.items.trans (by rw [ho]), hev.ctx.trans hu.ctx⟩

end MutableUnknownFieldSet
end Protocyte
