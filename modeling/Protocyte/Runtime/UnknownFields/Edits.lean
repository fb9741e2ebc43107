import Protocyte.Runtime.UnknownFields.Mutable
import Protocyte.Runtime.UnknownFields.Read

/-! Histories of a storage of unknown fields. On the list of its field trees every call is a
list operation, and the bytes are the canonical encoding of that list all along. -/
namespace Protocyte
open Foundation.Computation Foundation.Wire

/-- A call that may change a storage of unknown fields. -/
inductive UnknownFieldOp
  | readUnknownField (recursionDepth : ℕ) (reader : Reader)
  | addVarint (fieldNumber : ℕ) (value : UInt64)
  | addFixed32 (fieldNumber : ℕ) (value : UInt32)
  | addFixed64 (fieldNumber : ℕ) (value : UInt64)
  | addLengthDelimited (fieldNumber : ℕ) (value : ByteSpan)
  | addGroup (fieldNumber : ℕ) (value : ByteSpan)
  | mergeFrom (value : ByteSpan)
  | erase (index : UInt64)
  | deleteSubrange (start count : UInt64)
  | deleteByNumber (fieldNumber : ℕ)
  | replaceVarint (index : UInt64) (fieldNumber : ℕ) (value : UInt64)
  | replaceFixed32 (index : UInt64) (fieldNumber : ℕ) (value : UInt32)
  | replaceFixed64 (index : UInt64) (fieldNumber : ℕ) (value : UInt64)
  | replaceLengthDelimited (index : UInt64) (fieldNumber : ℕ) (value : ByteSpan)
  | replaceGroup (index : UInt64) (fieldNumber : ℕ) (value : ByteSpan)
  | clear

namespace UnknownFieldOp
open MutableUnknownFieldSet

/-- A parse at some depth reads a tag and keeps the field behind it. -/
def readField (recursionDepth : ℕ) (reader : Reader) : BoundM ByteVec Unit := fun s =>
  match (do
      let tag ← onReader readTag
      Protocyte.readUnknownField tag.wireType tag.fieldNumber : ParseM ByteVec Unit)
      { ctx := { s.ctx with recursionDepth }, obj := s.obj, reader } with
  | .ok _ p => .ok () p.toBound
  | .error e p => .error e p.toBound

def apply : UnknownFieldOp → BoundM ByteVec Unit
  | .readUnknownField recursionDepth reader => readField recursionDepth reader
  | .addVarint fieldNumber value => MutableUnknownFieldSet.addVarint fieldNumber value
  | .addFixed32 fieldNumber value => MutableUnknownFieldSet.addFixed32 fieldNumber value
  | .addFixed64 fieldNumber value => MutableUnknownFieldSet.addFixed64 fieldNumber value
  | .addLengthDelimited fieldNumber value =>
    MutableUnknownFieldSet.addLengthDelimited fieldNumber value
  | .addGroup fieldNumber value => MutableUnknownFieldSet.addGroup fieldNumber value
  | .mergeFrom value => MutableUnknownFieldSet.mergeFrom value
  | .erase index => MutableUnknownFieldSet.erase index.toNat
  | .deleteSubrange start count => MutableUnknownFieldSet.deleteSubrange start.toNat count.toNat
  | .deleteByNumber fieldNumber => discard (MutableUnknownFieldSet.deleteByNumber fieldNumber)
  | .replaceVarint index fieldNumber value =>
    MutableUnknownFieldSet.replaceVarint index.toNat fieldNumber value
  | .replaceFixed32 index fieldNumber value =>
    MutableUnknownFieldSet.replaceFixed32 index.toNat fieldNumber value
  | .replaceFixed64 index fieldNumber value =>
    MutableUnknownFieldSet.replaceFixed64 index.toNat fieldNumber value
  | .replaceLengthDelimited index fieldNumber value =>
    MutableUnknownFieldSet.replaceLengthDelimited index.toNat fieldNumber value
  | .replaceGroup index fieldNumber value =>
    MutableUnknownFieldSet.replaceGroup index.toNat fieldNumber value
  | .clear => MutableUnknownFieldSet.clear

/-- The storage after a call, whether it succeeds or fails. -/
def after (op : UnknownFieldOp) (s : Bound ByteVec) : Bound ByteVec :=
  match op.apply s with
  | .ok _ s' | .error _ s' => s'

def run (ops : List UnknownFieldOp) (s : Bound ByteVec) : Bound ByteVec :=
  ops.foldl (fun s op => op.after s) s

/-- What a successful call does to the list of field trees. A span that lies in the storage is
read as it was before the call. -/
def Edits (s : Bound ByteVec) (ts ts' : List Tree) : UnknownFieldOp → Prop
  | .readUnknownField recursionDepth reader => ∃ n t,
      fieldTrees (reader.rest.take n) (s.ctx.limits.maxRecursionDepth - recursionDepth) = .ok [t] ∧
        ts' = ts ++ [t]
  | .addVarint f v => ts' = ts ++ [.varint f v.toNat]
  | .addFixed32 f v => ts' = ts ++ [.fixed32 f v.toNat]
  | .addFixed64 f v => ts' = ts ++ [.fixed64 f v.toNat]
  | .addLengthDelimited f value => ts' = ts ++ [.bytes f (value.deref s.obj.items)]
  | .addGroup f value => ∃ us,
      fieldTrees (value.deref s.obj.items) (s.ctx.limits.maxRecursionDepth - 1) = .ok us ∧
        ts' = ts ++ [.group f us]
  | .mergeFrom value => ∃ us,
      fieldTrees (value.deref s.obj.items) s.ctx.limits.maxRecursionDepth = .ok us ∧ ts' = ts ++ us
  | .erase i => i.toNat < ts.length ∧ ts' = ts.eraseIdx i.toNat
  | .deleteSubrange start count => start.toNat + count.toNat ≤ ts.length ∧
      ts' = ts.take start.toNat ++ ts.drop (start.toNat + count.toNat)
  | .deleteByNumber k => ts' = ts.filter (fun t => t.number ≠ k)
  | .replaceVarint i f v => i.toNat < ts.length ∧ ts' = ts.set i.toNat (.varint f v.toNat)
  | .replaceFixed32 i f v => i.toNat < ts.length ∧ ts' = ts.set i.toNat (.fixed32 f v.toNat)
  | .replaceFixed64 i f v => i.toNat < ts.length ∧ ts' = ts.set i.toNat (.fixed64 f v.toNat)
  | .replaceLengthDelimited i f value => i.toNat < ts.length ∧
      ts' = ts.set i.toNat (.bytes f (value.deref s.obj.items))
  | .replaceGroup i f value => i.toNat < ts.length ∧ ∃ us,
      fieldTrees (value.deref s.obj.items) (s.ctx.limits.maxRecursionDepth - 1) = .ok us ∧
        ts' = ts.set i.toNat (.group f us)
  | .clear => ts' = []

/-- The storage of `s'` holds the records `ts'`, canonically and within the limit if `s` does. -/
structure Follows (s s' : Bound ByteVec) (ts ts' : List Tree) : Prop where
  records : Records (Body s.ctx.limits.maxRecursionDepth) s'.obj.items ts'
  canonical : s.obj.items = encodeAll ts → s'.obj.items = encodeAll ts'
  within : s.obj.size ≤ s.ctx.limits.maxUnknownFieldBytes →
    s'.obj.size ≤ s.ctx.limits.maxUnknownFieldBytes
  limits : s'.ctx.limits = s.ctx.limits

variable {s : Bound ByteVec} {ts : List Tree}

private theorem readField_exits (h : Decodes s ts) (depth : ℕ) (reader : Reader) :
    Exits (readField depth reader s)
      (fun _ s' => ∃ ts', Edits s ts ts' (.readUnknownField depth reader) ∧ Follows s s' ts ts')
      (fun _ s' => s'.obj.items = s.obj.items ∧ s'.ctx.limits = s.ctx.limits) := by
  have hx : Exits ((do
      let tag ← onReader readTag
      Protocyte.readUnknownField tag.wireType tag.fieldNumber : ParseM ByteVec Unit)
      { ctx := { s.ctx with recursionDepth := depth }, obj := s.obj, reader })
      (fun _ p => ∃ ts', Edits s ts ts' (.readUnknownField depth reader) ∧
        Follows s p.toBound ts ts')
      (fun _ p => p.obj.items = s.obj.items ∧ p.ctx.limits = s.ctx.limits) := by
    refine Exits.intro (fun _ p hp => ?_) fun e p hp => ?_
    · obtain ⟨tag, u, hu, hp⟩ := bind_eq_ok.mp hp
      obtain ⟨r, hr, rfl⟩ := onReader_eq_ok.mp hu
      obtain ⟨ks, ys, hks, hkey, rfl⟩ := readTag_eq_ok.mp hr
      obtain ⟨bs, xs, t, hbs, hb, hst⟩ := (readUnknownField_exits tag.wireType hkey.2.2.1 _).ok hp
      obtain ⟨hn, hc⟩ := (body_canonical _).number_code hb
      have hrec : Records (Body (s.ctx.limits.maxRecursionDepth - depth)) (ks ++ bs) [t] :=
        .singleton hkey hb
      have htake : reader.rest.take (ks ++ bs).length = ks ++ bs := by
        have hbs' : ys = bs ++ xs := by
          rw [← hbs, Reader.rest_advance, hks, List.drop_left]
        rw [hks, hbs', ← List.append_assoc, List.take_left]
      refine ⟨ts ++ [t], ⟨(ks ++ bs).length, t, ?_, rfl⟩, ?_, fun hcan => ?_, hst.within,
        hst.ctx.balanced.limits⟩
      · rw [htake]
        exact fieldTrees_eq_ok.mpr hrec
      · rw [hst.items, ← encodeAll_singleton]
        refine h.append ((hrec.canonical (body_canonical _)).mono fun _ _ _ _ => ?_)
        exact Body.mono (Nat.sub_le _ _)
      · rw [hst.items, encodeAll_append, encodeAll_singleton]
        exact congrArg (· ++ t.encode) hcan
    · rcases bind_eq_error.mp hp with hu | ⟨tag, u, hu, hp⟩
      · obtain ⟨r, -, rfl⟩ := onReader_eq_error.mp hu
        exact ⟨rfl, rfl⟩
      · obtain ⟨r, hr, rfl⟩ := onReader_eq_ok.mp hu
        obtain ⟨ks, ys, -, hkey, -⟩ := readTag_eq_ok.mp hr
        have he := (readUnknownField_exits tag.wireType hkey.2.2.1 _).error hp
        exact ⟨he.1, he.2.limits⟩
  unfold readField
  split
  · exact hx.ok ‹_›
  · exact hx.error ‹_›

theorem Follows.of_evolves {s s' : Bound ByteVec}
    {ts ts' : List Tree} (h : Evolves s s' ts ts') : Follows s s' ts ts' :=
  ⟨h.records, h.canonical, h.within, h.ctx.limits⟩

private theorem decodes_empty (ctx : Context) : Decodes { ctx, obj := Vec.empty } [] := .nil

/-- What a successful call does to the records, and that a failing one does nothing. -/
theorem apply_exits (h : Decodes s ts) (op : UnknownFieldOp) : Exits (op.apply s)
    (fun _ s' => ∃ ts', op.Edits s ts ts' ∧ Follows s s' ts ts')
    (fun _ s' => s'.obj.items = s.obj.items ∧ s'.ctx.limits = s.ctx.limits) := by
  have untouched : ∀ (_ : Error) (s' : Bound ByteVec), Untouched s s' →
      s'.obj.items = s.obj.items ∧ s'.ctx.limits = s.ctx.limits :=
    fun _ _ hu => ⟨hu.items, hu.ctx.limits⟩
  have appended : ∀ {us : List Tree} (s' : Bound ByteVec), Evolves s s' ts us →
      ∀ {op : UnknownFieldOp}, op.Edits s ts us → ∃ ts', op.Edits s ts ts' ∧ Follows s s' ts ts' :=
    fun _ hev _ he => ⟨_, he, .of_evolves hev⟩
  have replaced : ∀ {i : ℕ} {build : BoundM ByteVec Unit} {t : Tree},
      Exits (build { ctx := s.ctx, obj := Vec.empty })
        (fun _ u => Evolves { ctx := s.ctx, obj := Vec.empty } u [] ([] ++ [t]))
        (fun _ u => Untouched { ctx := s.ctx, obj := Vec.empty } u) →
      Exits (replaceWith i build s)
        (fun _ s' => i < ts.length ∧ Evolves s s' ts (ts.set i t)) (fun _ s' => Untouched s s') := by
    intro i build t hb
    refine (replaceWith_exits (P := fun u => u = t) h i
      (hb.mono (fun _ _ hev => ⟨t, rfl, hev⟩) fun _ _ hu => hu)).mono ?_ (fun _ _ hu => hu)
    rintro - s' ⟨hi, t, rfl, hev⟩
    exact ⟨hi, hev⟩
  cases op with
  | readUnknownField depth reader => exact readField_exits h depth reader
  | addVarint f v => exact (addVarint_exits h f v).mono (fun _ s' hev => appended s' hev rfl) untouched
  | addFixed32 f v =>
    exact (addFixed32_exits h f v).mono (fun _ s' hev => appended s' hev rfl) untouched
  | addFixed64 f v =>
    exact (addFixed64_exits h f v).mono (fun _ s' hev => appended s' hev rfl) untouched
  | addLengthDelimited f value =>
    exact (addLengthDelimited_exits h f value).mono (fun _ s' hev => appended s' hev rfl) untouched
  | addGroup f value =>
    refine (addGroup_exits h f value).mono ?_ untouched
    rintro - s' ⟨us, hus, hev⟩
    exact appended s' hev ⟨us, fieldTrees_eq_ok.mpr hus, rfl⟩
  | mergeFrom value =>
    refine (mergeFrom_exits h value).mono ?_ untouched
    rintro - s' ⟨us, hus, hev⟩
    exact appended s' hev ⟨us, fieldTrees_eq_ok.mpr hus, rfl⟩
  | erase i =>
    refine (erase_exits h (Nat.le_of_lt_succ i.toNat_lt)).mono ?_ (fun e s' hu => untouched e s' hu.2)
    rintro - s' ⟨hi, hev⟩
    exact appended s' hev ⟨hi, rfl⟩
  | deleteSubrange start count =>
    refine (deleteSubrange_exits h (Nat.le_of_lt_succ start.toNat_lt)
      (Nat.le_of_lt_succ count.toNat_lt)).mono ?_ (fun e s' hu => untouched e s' hu.2)
    rintro - s' ⟨hi, hev⟩
    exact appended s' hev ⟨hi, rfl⟩
  | deleteByNumber k =>
    refine Exits.bind (deleteByNumber_exits h k |>.mono (fun _ _ hq => hq) fun _ _ hf => hf.elim) ?_
    rintro n s' ⟨-, hev⟩
    exact appended s' hev rfl
  | replaceVarint i f v =>
    refine (replaced (addVarint_exits (decodes_empty s.ctx) f v)).mono ?_ untouched
    exact fun _ s' hev => appended s' hev.2 ⟨hev.1, rfl⟩
  | replaceFixed32 i f v =>
    refine (replaced (addFixed32_exits (decodes_empty s.ctx) f v)).mono ?_ untouched
    exact fun _ s' hev => appended s' hev.2 ⟨hev.1, rfl⟩
  | replaceFixed64 i f v =>
    refine (replaced (addFixed64_exits (decodes_empty s.ctx) f v)).mono ?_ untouched
    exact fun _ s' hev => appended s' hev.2 ⟨hev.1, rfl⟩
  | replaceLengthDelimited i f value =>
    refine (replaced (addLengthDelimited_exits (decodes_empty s.ctx) f
      (.external (value.deref s.obj.items)))).mono ?_ untouched
    exact fun _ s' hev => appended s' hev.2 ⟨hev.1, rfl⟩
  | replaceGroup i f value =>
    refine (replaceWith_exits (P := fun t => ∃ us, Records (Body (s.ctx.limits.maxRecursionDepth - 1))
      (value.deref s.obj.items) us ∧ t = .group f us) h i.toNat ?_).mono ?_ untouched
    · refine (addGroup_exits (decodes_empty s.ctx) f (.external (value.deref s.obj.items))).mono ?_
        (fun _ _ hu => hu)
      rintro - u ⟨us, hus, hev⟩
      exact ⟨_, ⟨us, hus, rfl⟩, hev⟩
    · rintro - s' ⟨hi, t, ⟨us, hus, rfl⟩, hev⟩
      exact appended s' hev ⟨hi, us, fieldTrees_eq_ok.mpr hus, rfl⟩
  | clear => exact ⟨[], rfl, .nil, by simp, fun _ => Nat.zero_le _, rfl⟩

/-- The records of the storage, of which its bytes are the canonical encoding within the limit. -/
structure Canonical (s : Bound ByteVec) (ts : List Tree) : Prop where
  decodes : Decodes s ts
  items : s.obj.items = encodeAll ts
  within : s.obj.size ≤ s.ctx.limits.maxUnknownFieldBytes

theorem Canonical.after (h : Canonical s ts) (op : UnknownFieldOp) :
    (op.after s).ctx.limits = s.ctx.limits ∧ ∃ ts', Canonical (op.after s) ts' := by
  have hx := apply_exits h.decodes op
  unfold UnknownFieldOp.after
  cases ho : op.apply s with
  | ok u s' =>
    obtain ⟨ts', -, hf⟩ := hx.ok ho
    refine ⟨hf.limits, ts', ?_, hf.canonical h.items, ?_⟩
    · simp only [Decodes, hf.limits]
      exact hf.records
    · simp only [hf.limits]
      exact hf.within h.within
  | error e s' =>
    obtain ⟨hi, hl⟩ := hx.error ho
    refine ⟨hl, ts, ?_, hi.trans h.items, ?_⟩
    · simp only [Decodes, hi, hl]
      exact h.decodes
    · simp only [Vec.size, hi, hl]
      exact h.within

theorem Canonical.run (h : Canonical s ts) (ops : List UnknownFieldOp) :
    (run ops s).ctx.limits = s.ctx.limits ∧ ∃ ts', Canonical (run ops s) ts' := by
  induction ops generalizing s ts with
  | nil => exact ⟨rfl, ts, h⟩
  | cons op ops ih =>
    obtain ⟨hl, ts', h'⟩ := h.after op
    obtain ⟨hl', hts⟩ := ih h'
    exact ⟨hl'.trans hl, hts⟩

/-- Whatever calls a storage has seen since it was empty, its bytes decode completely, are their
own canonical encoding and stay within the limit; and a call that fails changes none of them. -/
theorem unknown_field_history (ctx : Context) (ops : List UnknownFieldOp) :
    let s := run ops { ctx, obj := Vec.empty }
    s.ctx.limits = ctx.limits ∧
      validateUnknownFieldBytes s.obj.items ctx.limits.maxRecursionDepth = .ok () ∧
      writeCanonicalUnknownFields s.obj.items ctx.limits.maxRecursionDepth ([] : List UInt8) =
        .ok () s.obj.items ∧
      s.obj.size ≤ ctx.limits.maxUnknownFieldBytes ∧
      ∀ (op : UnknownFieldOp) e s', op.apply s = .error e s' → s'.obj.items = s.obj.items := by
  intro s
  have hinit : Canonical { ctx, obj := Vec.empty } [] :=
    ⟨decodes_empty ctx, by simp, Nat.zero_le _⟩
  obtain ⟨hl, ts, hts⟩ := hinit.run ops
  have hrec : Records (Body ctx.limits.maxRecursionDepth) s.obj.items ts :=
    hl ▸ hts.decodes
  refine ⟨hl, validateUnknownFieldBytes_eq_ok.mpr ⟨ts, hrec⟩, ?_, ?_, fun op e s' he => ?_⟩
  · rw [(writes_canonical hrec).unbounded, List.nil_append]
    exact congrArg _ hts.items.symm
  · exact hl ▸ hts.within
  · exact ((apply_exits hts.decodes op).error he).1

/-- On a storage that decodes completely, the set is the list of its field trees. -/
theorem mutableUnknownFieldSet_refines (s : Bound ByteVec) (ts : List Tree)
    (h : fieldTrees s.obj.items s.ctx.limits.maxRecursionDepth = .ok ts) :
    (∀ (op : UnknownFieldOp) s', op.apply s = .ok () s' → ∃ ts', op.Edits s ts ts' ∧
        fieldTrees s'.obj.items s'.ctx.limits.maxRecursionDepth = .ok ts') ∧
      (∀ (op : UnknownFieldOp) e s', op.apply s = .error e s' →
        fieldTrees s'.obj.items s'.ctx.limits.maxRecursionDepth = .ok ts) ∧
      (∀ index : UInt64, (∃ e s', MutableUnknownFieldSet.erase index.toNat s = .error e s') ↔
        ts.length < index.toNat + 1) ∧
      (∀ start count : UInt64,
        (∃ e s', MutableUnknownFieldSet.deleteSubrange start.toNat count.toNat s = .error e s') ↔
          ts.length < start.toNat + count.toNat) ∧
      (∀ k, ∃ s', MutableUnknownFieldSet.deleteByNumber k s =
        .ok (ts.filter (fun t => t.number = k)).length s') ∧
      MutableUnknownFieldSet.fieldCount s = ts.length ∧
      ∀ i, match ts[i]? with
        | some t => ∃ view, (MutableUnknownFieldSet.view s).field i = .ok view ∧
            view.tree (fun group => fieldTrees group.bytes group.maxRecursionDepth) = .ok t
        | none => (MutableUnknownFieldSet.view s).field i = .error { code := .invalidArgument } := by
  have hts : Decodes s ts := fieldTrees_eq_ok.mp h
  have fails : ∀ {start count : ℕ}, start ≤ usizeMax → count ≤ usizeMax →
      ((∃ e s', MutableUnknownFieldSet.deleteSubrange start count s = .error e s') ↔
        ts.length < start + count) := by
    intro start count hstart hcount
    have hx := deleteSubrange_exits hts hstart hcount
    constructor
    · rintro ⟨e, s', he⟩
      exact (hx.error he).1
    · intro hlt
      cases ho : MutableUnknownFieldSet.deleteSubrange start count s with
      | ok u s' => exact absurd (hx.ok ho).1 (Nat.not_le_of_lt hlt)
      | error e s' => exact ⟨e, s', rfl⟩
  refine ⟨fun op s' ho => ?_, fun op e s' he => ?_, fun index => ?_, fun start count => ?_,
    fun k => ?_, fieldCount_eq hts, fun i => ?_⟩
  · obtain ⟨ts', hedit, hf⟩ := (apply_exits hts op).ok ho
    exact ⟨ts', hedit, fieldTrees_eq_ok.mpr (hf.limits.symm ▸ hf.records)⟩
  · obtain ⟨hi, hl⟩ := (apply_exits hts op).error he
    rw [hi, hl]
    exact h
  · exact fails (Nat.le_of_lt_succ index.toNat_lt) (by decide)
  · exact fails (Nat.le_of_lt_succ start.toNat_lt) (Nat.le_of_lt_succ count.toNat_lt)
  · have hx := deleteByNumber_exits hts k
    cases ho : MutableUnknownFieldSet.deleteByNumber k s with
    | ok n s' => exact ⟨s', by rw [(hx.ok ho).1]⟩
    | error e s' => exact (hx.error ho).elim
  · have hfield := field_eq hts i
    revert hfield
    cases ts[i]? with
    | none => exact id
    | some t =>
      rintro ⟨view, hview, hshows⟩
      exact ⟨view, hview, hshows.tree fun us _ hus => fieldTrees_eq_ok.mpr hus⟩

/-- A number, and a group with a number. -/
def groupBytes : List UInt8 := [0x08, 0x01, 0x1b, 0x10, 0x05, 0x1c]

theorem groupBytes_le : groupBytes.length ≤ 6 := by decide

theorem groupCapacity_le : 6 ≤ usizeMax := by decide

def groupStorage : Bound ByteVec :=
  { ctx := { limits := { maxRecursionDepth := 2, maxUnknownFieldBytes_le := unknownFieldBytes_le } }
    obj := { items := groupBytes, capacity := 6, length_le := groupBytes_le
             capacity_le := groupCapacity_le } }

private theorem replaceGroup_groupStorage : Exits ((replaceGroup 0 7 (.own 3 2)).apply groupStorage)
    (fun _ _ => True) (fun _ _ => False) := by
  decide +kernel

/-- The number is replaced by a group of what the group after it holds. -/
theorem mutableUnknownFieldSet_refines_aliased :
    (∃ s', (replaceGroup 0 7 (.own 3 2)).apply groupStorage = .ok () s' ∧
      fieldTrees s'.obj.items s'.ctx.limits.maxRecursionDepth =
        .ok [.group 7 [.varint 2 5], .group 3 [.varint 2 5]]) ∧
    (∃ e s', MutableUnknownFieldSet.erase (2 : UInt64).toNat groupStorage = .error e s') ∧
    (∃ s', MutableUnknownFieldSet.deleteByNumber 3 groupStorage = .ok 1 s') ∧
    MutableUnknownFieldSet.fieldCount groupStorage = 2 := by
  obtain ⟨hedits, _, herase, _, hdelete, hcount, _⟩ := mutableUnknownFieldSet_refines groupStorage
    [.varint 1 1, .group 3 [.varint 2 5]] (by rfl)
  have hgroup : fieldTrees [0x10, 0x05] 1 = .ok [.varint 2 5] := by rfl
  refine ⟨?_, (herase 2).mpr (by decide), hdelete 3, hcount⟩
  cases h : (replaceGroup 0 7 (.own 3 2)).apply groupStorage with
  | error e s' => exact (replaceGroup_groupStorage.error h).elim
  | ok u s' =>
    obtain ⟨ts', ⟨_, us, hus, rfl⟩, hfields⟩ := hedits _ s' h
    obtain rfl := Except.ok.inj (hus.symm.trans hgroup)
    exact ⟨s', rfl, hfields⟩

end UnknownFieldOp
end Protocyte
