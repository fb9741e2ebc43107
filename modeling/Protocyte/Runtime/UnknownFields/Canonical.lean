import Protocyte.Runtime.UnknownFields.Range
import Protocyte.Runtime.Writer

/-! The canonical form of unknown fields: shortest tags, lengths and varints at every nesting
level. On bytes that decode completely the writer emits the encoding of their field trees. -/
namespace Protocyte
open Foundation.Computation Foundation.Wire
open Foundation.LittleEndian (toBytes)

section
variable {σ : Type} [Writer σ]

/-- The value of a field, after its tag. -/
def writeCanonicalValue (writeGroup : List UInt8 → EStateM Error σ Unit) (offset : ℕ)
    (field : UnknownFieldView) : EStateM Error σ Unit :=
  match field.wireType with
  | .varint => do writeVarint (← ofExcept field.varint)
  | .i64 => do writeFixed 8 (← ofExcept field.fixed64)
  | .len => do
    let value ← ofExcept field.lengthDelimited
    writeVarint value.length
    Writer.write value
  | .sgroup => do
    let (value, _) ← ofExcept field.group
    writeGroup value
    writeTag field.fieldNumber .egroup
  | .i32 => do writeFixed 4 (← ofExcept field.fixed32)
  | .egroup | .reserved6 | .reserved7 =>
    throw { code := .invalidWireType, offset, fieldNumber := field.fieldNumber }

def writeCanonicalLoop : ℕ → List UInt8 → ℕ → ℕ → EStateM Error σ Unit
  | 0, _, _, _ => diverged
  | n + 1, bytes, maxRecursionDepth, offset =>
    if offset < bytes.length then do
      let decoded ← ofExcept (decodeUnknownFieldAt bytes offset maxRecursionDepth)
      writeTag decoded.field.fieldNumber decoded.field.wireType
      writeCanonicalValue (fun value => writeCanonicalLoop n value (maxRecursionDepth - 1) 0) offset
        decoded.field
      writeCanonicalLoop n bytes maxRecursionDepth decoded.nextOffset
    else pure ()

def writeCanonicalUnknownFields (bytes : List UInt8) (maxRecursionDepth : ℕ) :
    EStateM Error σ Unit :=
  writeCanonicalLoop (bytes.length + 1) bytes maxRecursionDepth 0

private theorem writeCanonicalLoop_sound (n : ℕ) {bytes : List UInt8} {d o : ℕ} {s s' : σ}
    (h : writeCanonicalLoop n bytes d o s = .ok () s') :
    ∃ ts, Records (Body d) (bytes.drop o) ts := by
  induction n generalizing o s with
  | zero => cases h
  | succ n ih =>
    rw [writeCanonicalLoop] at h
    by_cases ho : o < bytes.length
    · rw [if_pos ho] at h
      obtain ⟨r, s₁, hr, h⟩ := bind_eq_ok.mp h
      obtain ⟨-, s₂, -, h⟩ := bind_eq_ok.mp h
      obtain ⟨-, s₃, -, h⟩ := bind_eq_ok.mp h
      obtain ⟨t, ht⟩ := shown_of_decoded (ofExcept_eq_ok.mp hr).1
      obtain ⟨ts, hts⟩ := ih h
      exact ⟨t :: ts, ht.records hts⟩
    · exact ⟨[], records_nil_iff.mpr (Nat.le_of_not_lt ho)⟩

/-- The writer gets to the end only of bytes that decode completely. -/
theorem writeCanonicalUnknownFields_sound {bytes : List UInt8} {d : ℕ} {s s' : σ}
    (h : writeCanonicalUnknownFields bytes d s = .ok () s') : ∃ ts, Records (Body d) bytes ts := by
  simpa using writeCanonicalLoop_sound _ h

variable [LawfulWriter σ]

private theorem writes_shown {g : List UInt8 → EStateM Error σ Unit} {o d : ℕ}
    {view : UnknownFieldView} {t : Tree} (h : view.Shows d t) (hn : t.number ≤ maxNumber)
    (hg : ∀ ts, view.value.length < view.encoded.length → Records (Body (d - 1)) view.value ts →
      Writes (g view.value) (encodeAll ts)) :
    Writes (writeCanonicalValue g o view) t.body := by
  have hnum := h.tag.1
  have hw : view.wireType = .ofCode t.code := by rw [← h.tag.2, WireType.ofCode_code]
  unfold writeCanonicalValue
  rw [hw, hnum]
  cases t with
  | varint n v =>
    simp only [Tree.code, WireType.ofCode, ofExcept_bind h.varint, Tree.body]
    exact writes_varint h.2.2.2
  | fixed64 n v =>
    simp only [Tree.code, WireType.ofCode, ofExcept_bind h.fixed64, Tree.body]
    exact writes_fixed 8 v
  | bytes n payload =>
    simp only [Tree.code, WireType.ofCode, ofExcept_bind h.lengthDelimited, Tree.body]
    exact (writes_varint h.2.2).bind (.bytes payload)
  | group n ts =>
    obtain ⟨-, -, -, hl, hts⟩ := id h
    simp only [Tree.code, WireType.ofCode, ofExcept_bind h.group.1, Tree.body]
    exact (hg ts hl hts).bind (writes_tag .egroup hn)
  | fixed32 n v =>
    simp only [Tree.code, WireType.ofCode, ofExcept_bind h.fixed32, Tree.body]
    exact writes_fixed 4 v

private theorem writes_loop (n : ℕ) {bytes : List UInt8} {d o : ℕ} {ts : List Tree}
    (h : Records (Body d) (bytes.drop o) ts) (hn : (bytes.drop o).length < n) :
    Writes (writeCanonicalLoop n bytes d o : EStateM Error σ Unit) (encodeAll ts) := by
  induction n generalizing bytes d o ts with
  | zero => omega
  | succ n ih =>
    rw [writeCanonicalLoop]
    cases ts with
    | nil =>
      rw [if_neg (Nat.not_lt.mpr (records_nil_iff.mp h)), encodeAll_nil]
      exact .nil
    | cons t ts =>
      obtain ⟨r, hr, hts⟩ := shown_of_records h
      have hlt := hr.length_lt
      have hle := hr.encoded_length_le
      have hnum := h.number_le (body_canonical d)
      rw [if_pos hr.lt_length, ofExcept_bind hr.decoded, encodeAll]
      rw [hr.shows.tag.1, ← hr.shows.tag.2]
      refine (writes_tag _ hnum).bind ((writes_shown hr.shows hnum ?_).bind (ih hts (by omega)))
      exact fun us hl hus => ih (by simpa using hus) (by simp only [List.drop_zero]; omega)

/-- Bytes that decode completely are written as the encoding of their field trees. -/
theorem writes_canonical {bytes : List UInt8} {d : ℕ} {ts : List Tree}
    (h : Records (Body d) bytes ts) :
    Writes (writeCanonicalUnknownFields bytes d : EStateM Error σ Unit) (encodeAll ts) :=
  writes_loop _ (o := 0) (by simpa using h) (by simp)

private theorem loop_follows (n : ℕ) {bytes : List UInt8} {d o : ℕ}
    (hn : (bytes.drop o).length < n) (s : σ) : Exits (writeCanonicalLoop n bytes d o s)
      (fun _ s' => Follows s s') (fun _ s' => Follows s s') := by
  induction n generalizing o s with
  | zero => omega
  | succ n ih =>
    rw [writeCanonicalLoop]
    refine Exits.ite (fun ho => ?_) fun _ => LawfulWriter.follows_refl s
    cases hr : decodeUnknownFieldAt bytes o d with
    | error e => exact LawfulWriter.follows_refl s
    | ok r =>
      obtain ⟨t, ht⟩ := shown_of_decoded hr
      have hnum := ht.record.number_le (body_canonical d)
      have hlt := ht.length_lt
      have hle := ht.encoded_length_le
      rw [ofExcept_bind rfl, ht.shows.tag.1]
      refine Exits.bind ((writes_tag r.field.wireType hnum s).mono (fun _ _ h => h)
        fun _ _ h => h.2.1) fun _ u hu => ?_
      have hv : Writes (writeCanonicalValue (fun value => writeCanonicalLoop n value (d - 1) 0) o
          r.field : EStateM Error σ Unit) t.body :=
        writes_shown ht.shows hnum fun us hl hus =>
          writes_loop n (o := 0) (by simpa using hus) (by simp only [List.drop_zero]; omega)
      refine Exits.bind ((hv u).mono (fun _ _ h => h) fun _ _ h =>
        LawfulWriter.follows_trans hu.2.1 h.2.1) fun _ v hv => ?_
      have hsv := LawfulWriter.follows_trans hu.2.1 hv.2.1
      exact (ih (by omega) v).mono (fun _ _ h => LawfulWriter.follows_trans hsv h)
        fun _ _ h => LawfulWriter.follows_trans hsv h

/-- Whatever the bytes are, only the writer's own steps are taken. -/
theorem writeCanonicalUnknownFields_follows (bytes : List UInt8) (d : ℕ) (s : σ) :
    Exits (writeCanonicalUnknownFields bytes d s) (fun _ s' => Follows s s')
      (fun _ s' => Follows s s') :=
  loop_follows _ (by simp) s

end

/-- Canonicalisation of accepted bytes is a normal form of their field trees. -/
theorem writeCanonicalUnknownFields_normal_form (bytes : List UInt8) (d : ℕ)
    (h : validateUnknownFieldBytes bytes d = .ok ()) :
    ∃ c, writeCanonicalUnknownFields bytes d ([] : List UInt8) = .ok () c ∧
      validateUnknownFieldBytes c d = .ok () ∧
      (∃ ts, fieldTrees bytes d = .ok ts ∧ fieldTrees c d = .ok ts) ∧
      c.length ≤ bytes.length ∧
      writeCanonicalUnknownFields c d ([] : List UInt8) = .ok () c ∧
      ∀ bytes' c', validateUnknownFieldBytes bytes' d = .ok () →
        writeCanonicalUnknownFields bytes' d ([] : List UInt8) = .ok () c' →
        (c' = c ↔ fieldTrees bytes' d = fieldTrees bytes d) := by
  obtain ⟨ts, hts⟩ := validateUnknownFieldBytes_eq_ok.mp h
  have hc := hts.canonical (body_canonical d)
  have emits : ∀ xs us, Records (Body d) xs us →
      writeCanonicalUnknownFields xs d ([] : List UInt8) = .ok () (encodeAll us) := fun xs us hus =>
    (writes_canonical hus).unbounded []
  refine ⟨encodeAll ts, emits bytes ts hts, validateUnknownFieldBytes_eq_ok.mpr ⟨ts, hc⟩,
    ⟨ts, fieldTrees_eq_ok.mpr hts, fieldTrees_eq_ok.mpr hc⟩, hts.length_le (body_canonical d),
    emits _ ts hc, fun bytes' c' h' hc' => ?_⟩
  obtain ⟨us, hus⟩ := validateUnknownFieldBytes_eq_ok.mp h'
  rw [emits bytes' us hus] at hc'
  obtain rfl : encodeAll us = c' := by simpa using hc'
  rw [fieldTrees_eq_ok.mpr hus, fieldTrees_eq_ok.mpr hts]
  constructor
  · intro he
    have hus' := hus.canonical (body_canonical d)
    rw [he] at hus'
    rw [hus'.unique (body_canonical d) hc]
  · intro he
    rw [Except.ok.inj he]

/-- A group whose member is spelled longer than it has to be, and one with another number. -/
theorem writeCanonicalUnknownFields_normal_form_group :
    ∃ c, writeCanonicalUnknownFields [0x0b, 0x90, 0x00, 0x85, 0x00, 0x0c] 1 ([] : List UInt8) =
        .ok () c ∧
      fieldTrees c 1 = .ok [.group 1 [.varint 2 5]] ∧ c.length ≤ 6 ∧
      writeCanonicalUnknownFields c 1 ([] : List UInt8) = .ok () c ∧
      c = [0x0b, 0x10, 0x05, 0x0c] ∧ [0x0b, 0x10, 0x06, 0x0c] ≠ c := by
  have hlong : fieldTrees [0x0b, 0x90, 0x00, 0x85, 0x00, 0x0c] 1 =
    .ok [.group 1 [.varint 2 5]] := by rfl
  have hshort : fieldTrees [0x0b, 0x10, 0x05, 0x0c] 1 = .ok [.group 1 [.varint 2 5]] := by rfl
  have hother : fieldTrees [0x0b, 0x10, 0x06, 0x0c] 1 = .ok [.group 1 [.varint 2 6]] := by rfl
  obtain ⟨c, hc, -, ⟨ts, hts, hcs⟩, hlength, hagain, hsame⟩ :=
    writeCanonicalUnknownFields_normal_form [0x0b, 0x90, 0x00, 0x85, 0x00, 0x0c] 1 (by rfl)
  refine ⟨c, hc, hcs.trans (hts.symm.trans hlong), hlength, hagain, ?_, ?_⟩
  · exact ((hsame [0x0b, 0x10, 0x05, 0x0c] _ (by rfl) (by rfl)).mpr (hshort.trans hlong.symm)).symm
  · intro he
    have htrees := (hsame [0x0b, 0x10, 0x06, 0x0c] _ (by rfl) (by rfl)).mp he
    rw [hother, hlong] at htrees
    cases htrees

end Protocyte
