import Protocyte.Runtime.UnknownFields.Decode

/-! Ranges of unknown fields. Every loop over a range goes from record to record, so on a range
that decodes completely it follows the list of its field trees. -/
namespace Protocyte
open Foundation.Computation Foundation.Wire
open Foundation.LittleEndian (ofBytes)

structure UnknownFieldRange where
  bytes : List UInt8
  maxRecursionDepth : ℕ

/-- Every iteration decodes a field, so the bytes left bound the iterations of the loops below. -/
def validateLoop (bytes : List UInt8) (maxRecursionDepth : ℕ) : ℕ → ℕ → Except Error Unit
  | 0, _ => throw { code := .diverged }
  | n + 1, offset =>
    if offset < bytes.length then do
      let decoded ← decodeUnknownFieldAt bytes offset maxRecursionDepth
      validateLoop bytes maxRecursionDepth n decoded.nextOffset
    else return ()

def validateUnknownFieldBytes (bytes : List UInt8) (maxRecursionDepth : ℕ) : Except Error Unit :=
  validateLoop bytes maxRecursionDepth (bytes.length + 1) 0

namespace UnknownFieldRange

def fieldCountLoop (range : UnknownFieldRange) : ℕ → ℕ → ℕ → ℕ
  | 0, _, count => count
  | n + 1, offset, count =>
    if offset < range.bytes.length then
      match decodeUnknownFieldAt range.bytes offset range.maxRecursionDepth with
      | .error _ => count
      | .ok decoded => fieldCountLoop range n decoded.nextOffset (count + 1)
    else count

def fieldCount (range : UnknownFieldRange) : ℕ := range.fieldCountLoop (range.bytes.length + 1) 0 0

def fieldLoop (range : UnknownFieldRange) (index : ℕ) : ℕ → ℕ → ℕ → Except Error UnknownFieldView
  | 0, _, _ => throw { code := .diverged }
  | n + 1, offset, current =>
    if offset < range.bytes.length then do
      let decoded ← decodeUnknownFieldAt range.bytes offset range.maxRecursionDepth
      if current = index then return decoded.field
      else fieldLoop range index n decoded.nextOffset (current + 1)
    else throw { code := .invalidArgument }

def field (range : UnknownFieldRange) (index : ℕ) : Except Error UnknownFieldView :=
  range.fieldLoop index (range.bytes.length + 1) 0 0

end UnknownFieldRange

/-- The tree a view shows, given the trees of a group's range. -/
def UnknownFieldView.tree (groupTrees : UnknownFieldRange → Except Error (List Tree))
    (view : UnknownFieldView) : Except Error Tree :=
  match view.wireType with
  | .varint => do return .varint view.fieldNumber (← view.varint)
  | .i64 => do return .fixed64 view.fieldNumber (← view.fixed64)
  | .len => do return .bytes view.fieldNumber (← view.lengthDelimited)
  | .sgroup => do
    let (bytes, depth) ← view.group
    return .group view.fieldNumber (← groupTrees ⟨bytes, depth⟩)
  | .i32 => do return .fixed32 view.fieldNumber (← view.fixed32)
  | .egroup | .reserved6 | .reserved7 => throw { code := .invalidWireType }

def fieldTreesLoop : ℕ → UnknownFieldRange → ℕ → Except Error (List Tree)
  | 0, _, _ => throw { code := .diverged }
  | n + 1, range, offset =>
    if offset < range.bytes.length then do
      let decoded ← decodeUnknownFieldAt range.bytes offset range.maxRecursionDepth
      let t ← decoded.field.tree fun group => fieldTreesLoop n group 0
      let ts ← fieldTreesLoop n range decoded.nextOffset
      return t :: ts
    else return []

/-- The field trees of a range that decodes completely, read off its views. -/
def fieldTrees (bytes : List UInt8) (maxRecursionDepth : ℕ) : Except Error (List Tree) :=
  fieldTreesLoop (bytes.length + 1) ⟨bytes, maxRecursionDepth⟩ 0

namespace UnknownFieldView

variable {view : UnknownFieldView} {d n v : ℕ}

private theorem eof_advance_all (bs : List UInt8) :
    ((sliceAt bs 0).advance bs.length).eof = true := by
  simp [sliceAt, Reader.advance, SliceReader.advance, Reader.eof, SliceReader.eof]

theorem Shows.varint (h : view.Shows d (.varint n v)) : view.varint = .ok v := by
  obtain ⟨ht, hv⟩ := h
  have hw : view.wireType = .varint := congrArg Tag.wireType ht
  have hr : readVarint (sliceAt view.value 0) = .ok v ((sliceAt view.value 0).advance _) :=
    readVarint_of_varint hv (List.append_nil view.value).symm
  rw [UnknownFieldView.varint, if_neg (not_not_intro hw),
    except_bind_of_ok (withFieldError_eq_ok.mpr (probe_of_ok hr))]
  simp only [eof_advance_all, Bool.not_true, Bool.false_eq_true, if_false]
  rfl

private theorem readFixed_value {bs : List UInt8} {width : ℕ} (h : bs.length = width) :
    readFixed width (sliceAt bs 0) = .ok (ofBytes bs) ((sliceAt bs 0).advance width) :=
  readFixed_eq_ok.mpr ⟨bs, [], by simp, h, rfl, rfl⟩

theorem Shows.fixed64 (h : view.Shows d (.fixed64 n v)) : view.fixed64 = .ok v := by
  obtain ⟨ht, hl, rfl⟩ := h
  have hw : view.wireType = .i64 := congrArg Tag.wireType ht
  rw [UnknownFieldView.fixed64, if_neg (not_not_intro hw),
    except_bind_of_ok (withFieldError_eq_ok.mpr (probe_of_ok (readFixed_value hl)))]
  rfl

theorem Shows.fixed32 (h : view.Shows d (.fixed32 n v)) : view.fixed32 = .ok v := by
  obtain ⟨ht, hl, rfl⟩ := h
  have hw : view.wireType = .i32 := congrArg Tag.wireType ht
  rw [UnknownFieldView.fixed32, if_neg (not_not_intro hw),
    except_bind_of_ok (withFieldError_eq_ok.mpr (probe_of_ok (readFixed_value hl)))]
  rfl

theorem Shows.lengthDelimited {payload : List UInt8} (h : view.Shows d (.bytes n payload)) :
    view.lengthDelimited = .ok payload := by
  obtain ⟨ht, hv, -⟩ := h
  have hw : view.wireType = .len := congrArg Tag.wireType ht
  rw [UnknownFieldView.lengthDelimited, if_neg (not_not_intro hw), hv]

theorem Shows.group {ts : List Tree} (h : view.Shows d (.group n ts)) :
    view.group = .ok (view.value, d - 1) ∧ Records (Body (d - 1)) view.value ts := by
  obtain ⟨ht, -, hd, -, hts⟩ := h
  have hw : view.wireType = .sgroup := congrArg Tag.wireType ht
  refine ⟨?_, hts⟩
  rw [UnknownFieldView.group, if_neg (not_not_intro hw), hd]

theorem Shows.tag {t : Tree} (h : view.Shows d t) :
    view.fieldNumber = t.number ∧ view.wireType.code = t.code := by
  cases t with
  | varint | fixed64 | bytes | group | fixed32 =>
    exact ⟨congrArg Tag.fieldNumber h.1, congrArg (WireType.code ∘ Tag.wireType) h.1⟩

/-- The accessors read the tree back. -/
theorem Shows.tree {t : Tree} {g : UnknownFieldRange → Except Error (List Tree)}
    (h : view.Shows d t)
    (hg : ∀ ts, view.value.length < view.encoded.length → Records (Body (d - 1)) view.value ts →
      g ⟨view.value, d - 1⟩ = .ok ts) :
    view.tree g = .ok t := by
  have hn := h.tag.1
  have hw : view.wireType = .ofCode t.code := by rw [← h.tag.2, WireType.ofCode_code]
  unfold UnknownFieldView.tree
  rw [hw, hn]
  cases t with
  | varint => exact except_bind_of_ok h.varint
  | fixed64 => exact except_bind_of_ok h.fixed64
  | bytes => exact except_bind_of_ok h.lengthDelimited
  | group =>
    obtain ⟨-, -, -, hl, hts⟩ := id h
    exact (except_bind_of_ok h.group.1).trans (except_bind_of_ok (hg _ hl hts))
  | fixed32 => exact except_bind_of_ok h.fixed32

end UnknownFieldView

/-- Decoding at `o` gives `r`, which shows the record `t` that starts there. -/
structure Shown (bytes : List UInt8) (o d : ℕ) (r : DecodedUnknownField) (t : Tree) : Prop where
  decoded : decodeUnknownFieldAt bytes o d = .ok r
  shows : r.field.Shows d t
  split : bytes.drop o = r.field.encoded ++ bytes.drop r.nextOffset
  record : Records (Body d) r.field.encoded [t]
  next : r.nextOffset = o + r.field.encoded.length
  pos : 0 < r.field.encoded.length

variable {bytes : List UInt8} {o d : ℕ} {r : DecodedUnknownField} {t : Tree} {ts : List Tree}

private theorem shown_of {ks bs xs : List UInt8} (hks : bytes.drop o = ks ++ (bs ++ xs))
    (hkey : Key ks t.number t.code) (hb : Body d t.number t.code bs t)
    (hr : decodeUnknownFieldAt bytes o d = .ok r) (hnext : r.nextOffset = o + ks.length + bs.length)
    (henc : r.field.encoded = ks ++ bs) (hs : r.field.Shows d t) : Shown bytes o d r t := by
  refine ⟨hr, hs, ?_, henc ▸ .singleton hkey hb, ?_, ?_⟩
  · rw [henc, hnext, ← List.drop_drop, ← List.drop_drop, hks, List.drop_left, List.drop_left,
      List.append_assoc]
  · rw [henc, hnext, List.length_append, Nat.add_assoc]
  · have := hkey.length_pos
    rw [henc, List.length_append]
    omega

theorem shown_of_decoded (h : decodeUnknownFieldAt bytes o d = .ok r) :
    ∃ t, Shown bytes o d r t := by
  obtain ⟨ks, bs, xs, t, hks, hkey, hb, hnext, henc, hs⟩ := decodeUnknownFieldAt_sound h
  exact ⟨t, shown_of hks hkey hb h hnext henc hs⟩

theorem records_nil_iff : Records (Body d) (bytes.drop o) [] ↔ bytes.length ≤ o := by
  rw [← List.drop_eq_nil_iff]
  constructor
  · intro h
    generalize bytes.drop o = xs at h
    cases h
    rfl
  · intro h
    rw [h]
    exact .nil

theorem shown_of_records (h : Records (Body d) (bytes.drop o) (t :: ts)) :
    ∃ r, Shown bytes o d r t ∧ Records (Body d) (bytes.drop r.nextOffset) ts := by
  generalize hx : bytes.drop o = xs at h
  cases h with
  | @cons m c ks bs cs _ _ hkey hb hts =>
    obtain ⟨rfl, rfl⟩ := (body_canonical d).number_code hb
    obtain ⟨r, hr, hnext, henc, hs⟩ := decodeUnknownFieldAt_complete hx hkey hb
    have hshown := shown_of hx hkey hb hr hnext henc hs
    refine ⟨r, hshown, ?_⟩
    rwa [hnext, ← List.drop_drop, ← List.drop_drop, hx, List.drop_left, List.drop_left]

namespace Shown

theorem records (h : Shown bytes o d r t) (hts : Records (Body d) (bytes.drop r.nextOffset) ts) :
    Records (Body d) (bytes.drop o) (t :: ts) := by
  rw [h.split]
  exact h.record.append hts

theorem lt_length (h : Shown bytes o d r t) : o < bytes.length := by
  have hl := congrArg List.length h.split
  have := h.pos
  rw [List.length_drop, List.length_append] at hl
  omega

/-- The bytes left shrink. -/
theorem length_lt (h : Shown bytes o d r t) :
    (bytes.drop r.nextOffset).length < (bytes.drop o).length := by
  have := h.pos
  rw [h.split, List.length_append]
  omega

theorem next_le (h : Shown bytes o d r t) : r.nextOffset ≤ bytes.length := by
  have hl := congrArg List.length h.split
  have := h.lt_length
  rw [List.length_drop, List.length_append, List.length_drop] at hl
  have := h.next
  omega

theorem fieldNumber (h : Shown bytes o d r t) : r.field.fieldNumber = t.number := h.shows.tag.1

theorem encoded_length_le (h : Shown bytes o d r t) :
    r.field.encoded.length ≤ (bytes.drop o).length := by
  rw [h.split, List.length_append]
  exact Nat.le_add_right _ _

end Shown

private theorem validateLoop_sound (n : ℕ) (h : validateLoop bytes d n o = .ok ()) :
    ∃ ts, Records (Body d) (bytes.drop o) ts := by
  induction n generalizing o with
  | zero => cases h
  | succ n ih =>
    rw [validateLoop] at h
    by_cases ho : o < bytes.length
    · rw [if_pos ho] at h
      obtain ⟨r, hr, h⟩ := except_bind_eq_ok.mp h
      obtain ⟨t, ht⟩ := shown_of_decoded hr
      obtain ⟨ts, hts⟩ := ih h
      exact ⟨t :: ts, ht.records hts⟩
    · exact ⟨[], records_nil_iff.mpr (Nat.le_of_not_lt ho)⟩

private theorem validateLoop_complete {n : ℕ} (h : Records (Body d) (bytes.drop o) ts)
    (hn : (bytes.drop o).length < n) : validateLoop bytes d n o = .ok () := by
  induction ts generalizing n o with
  | nil =>
    obtain ⟨n, rfl⟩ : ∃ j, n = j + 1 := ⟨n - 1, by omega⟩
    rw [validateLoop, if_neg (Nat.not_lt.mpr (records_nil_iff.mp h))]
    rfl
  | cons t ts ih =>
    obtain ⟨n, rfl⟩ : ∃ j, n = j + 1 := ⟨n - 1, by omega⟩
    obtain ⟨r, hr, hts⟩ := shown_of_records h
    have hlt := hr.length_lt
    rw [validateLoop, if_pos hr.lt_length, except_bind_of_ok hr.decoded]
    exact ih hts (by omega)

/-- What validation accepts is what the grammar does. -/
theorem validateUnknownFieldBytes_eq_ok :
    validateUnknownFieldBytes bytes d = .ok () ↔ ∃ ts, Records (Body d) bytes ts := by
  constructor
  · intro h
    simpa using validateLoop_sound _ h
  · rintro ⟨ts, h⟩
    exact validateLoop_complete (o := 0) (by simpa using h) (by simp)

private theorem fieldTreesLoop_sound (n : ℕ) (h : fieldTreesLoop n ⟨bytes, d⟩ o = .ok ts) :
    ∃ ts', Records (Body d) (bytes.drop o) ts' := by
  induction n generalizing o ts with
  | zero => cases h
  | succ n ih =>
    rw [fieldTreesLoop] at h
    by_cases ho : o < bytes.length
    · simp only [if_pos ho] at h
      obtain ⟨r, hr, h⟩ := except_bind_eq_ok.mp h
      obtain ⟨u, -, h⟩ := except_bind_eq_ok.mp h
      obtain ⟨us, hus, -⟩ := except_bind_eq_ok.mp h
      obtain ⟨t, ht⟩ := shown_of_decoded hr
      obtain ⟨ts, hts⟩ := ih hus
      exact ⟨t :: ts, ht.records hts⟩
    · exact ⟨[], records_nil_iff.mpr (Nat.le_of_not_lt ho)⟩

private theorem fieldTreesLoop_complete (n : ℕ) {bytes : List UInt8} {o d : ℕ} {ts : List Tree}
    (h : Records (Body d) (bytes.drop o) ts) (hn : (bytes.drop o).length < n) :
    fieldTreesLoop n ⟨bytes, d⟩ o = .ok ts := by
  induction n generalizing bytes o d ts with
  | zero => omega
  | succ n ih =>
    rw [fieldTreesLoop]
    cases ts with
    | nil =>
      rw [if_neg (Nat.not_lt.mpr (records_nil_iff.mp h))]
      rfl
    | cons t ts =>
      obtain ⟨r, hr, hts⟩ := shown_of_records h
      have hlt := hr.length_lt
      have hle := hr.encoded_length_le
      have htree : r.field.tree (fun group => fieldTreesLoop n group 0) = .ok t :=
        hr.shows.tree fun us hl hus => ih (by simpa using hus) (by simp only [List.drop_zero]; omega)
      rw [if_pos hr.lt_length, except_bind_of_ok hr.decoded, except_bind_of_ok htree,
        except_bind_of_ok (ih hts (by omega))]
      rfl

/-- The views of a range show the trees of its records. -/
theorem fieldTrees_eq_ok : fieldTrees bytes d = .ok ts ↔ Records (Body d) bytes ts := by
  have complete : ∀ us, Records (Body d) bytes us → fieldTrees bytes d = .ok us := fun us h =>
    fieldTreesLoop_complete _ (o := 0) (by simpa using h) (by simp)
  refine ⟨fun h => ?_, complete ts⟩
  obtain ⟨us, hus⟩ := fieldTreesLoop_sound _ h
  rw [List.drop_zero] at hus
  rw [complete us hus] at h
  cases h
  exact hus

private theorem fieldCountLoop_eq {n c : ℕ} (h : Records (Body d) (bytes.drop o) ts)
    (hn : (bytes.drop o).length < n) :
    UnknownFieldRange.fieldCountLoop ⟨bytes, d⟩ n o c = c + ts.length := by
  induction ts generalizing n o c with
  | nil =>
    obtain ⟨n, rfl⟩ : ∃ j, n = j + 1 := ⟨n - 1, by omega⟩
    rw [UnknownFieldRange.fieldCountLoop, if_neg (Nat.not_lt.mpr (records_nil_iff.mp h))]
    rfl
  | cons t ts ih =>
    obtain ⟨n, rfl⟩ : ∃ j, n = j + 1 := ⟨n - 1, by omega⟩
    obtain ⟨r, hr, hts⟩ := shown_of_records h
    have hlt := hr.length_lt
    rw [UnknownFieldRange.fieldCountLoop, if_pos hr.lt_length]
    simp only [hr.decoded]
    rw [ih hts (by omega), List.length_cons]
    omega

theorem fieldCount_eq (h : Records (Body d) bytes ts) :
    UnknownFieldRange.fieldCount ⟨bytes, d⟩ = ts.length := by
  rw [UnknownFieldRange.fieldCount, fieldCountLoop_eq (o := 0) (by simpa using h) (by simp),
    Nat.zero_add]

private theorem fieldLoop_eq {n c i : ℕ} (h : Records (Body d) (bytes.drop o) ts)
    (hn : (bytes.drop o).length < n) (hc : c ≤ i) :
    match ts[i - c]? with
    | some t => ∃ view, UnknownFieldRange.fieldLoop ⟨bytes, d⟩ i n o c = .ok view ∧ view.Shows d t
    | none => UnknownFieldRange.fieldLoop ⟨bytes, d⟩ i n o c =
        .error { code := .invalidArgument } := by
  induction ts generalizing n o c with
  | nil =>
    obtain ⟨n, rfl⟩ : ∃ j, n = j + 1 := ⟨n - 1, by omega⟩
    rw [UnknownFieldRange.fieldLoop, if_neg (Nat.not_lt.mpr (records_nil_iff.mp h))]
    rfl
  | cons t ts ih =>
    obtain ⟨n, rfl⟩ : ∃ j, n = j + 1 := ⟨n - 1, by omega⟩
    obtain ⟨r, hr, hts⟩ := shown_of_records h
    have hlt := hr.length_lt
    rw [UnknownFieldRange.fieldLoop, if_pos hr.lt_length, except_bind_of_ok hr.decoded]
    by_cases hi : c = i
    · subst hi
      simp only [Nat.sub_self, List.getElem?_cons_zero, if_true]
      exact ⟨r.field, rfl, hr.shows⟩
    · obtain ⟨k, hk⟩ : ∃ k, i - c = k + 1 := ⟨i - c - 1, by omega⟩
      have hk' : i - (c + 1) = k := by omega
      have hnext := ih (c := c + 1) (n := n) hts (by omega) (by omega)
      rw [hk'] at hnext
      simp only [hk, List.getElem?_cons_succ, if_neg hi]
      exact hnext

/-- `field(i)` shows the `i`-th record, and fails past the last one. -/
theorem field_eq (h : Records (Body d) bytes ts) (i : ℕ) :
    match ts[i]? with
    | some t => ∃ view, UnknownFieldRange.field ⟨bytes, d⟩ i = .ok view ∧ view.Shows d t
    | none => UnknownFieldRange.field ⟨bytes, d⟩ i = .error { code := .invalidArgument } :=
  fieldLoop_eq (o := 0) (by simpa using h) (by simp) (Nat.zero_le i)

end Protocyte
