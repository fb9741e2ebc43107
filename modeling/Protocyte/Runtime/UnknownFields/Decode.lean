import Protocyte.Runtime.Skip

/-! Decoding stored unknown fields. A field is decoded at an offset exactly when a record of the
grammar starts there, and its view shows that record. -/
namespace Protocyte
open Foundation.Computation Foundation.Wire
open Foundation.LittleEndian (ofBytes)

/-- A view, its two spans by their bytes. -/
structure UnknownFieldView where
  tag : Tag
  encoded : List UInt8
  value : List UInt8
  groupRecursionDepth : ℕ

structure DecodedUnknownField where
  field : UnknownFieldView
  nextOffset : ℕ

/-- `SliceReader {bytes.data() + offset, bytes.size() - offset, offset}`. -/
def sliceAt (bytes : List UInt8) (offset : ℕ) : Reader :=
  .slice { data := bytes.drop offset, baseOffset := offset }

def subspan (bytes : List UInt8) (offset count : ℕ) : List UInt8 := (bytes.drop offset).take count

/-- A read on a reader of the function's own, which a failure discards. -/
def probe {α : Type} (x : ReaderM α) (r : Reader) : Except Error (α × Reader) :=
  match x r with
  | .ok a r' => .ok (a, r')
  | .error e _ => .error e

def withFieldError {α : Type} (fieldNumber : ℕ) : Except Error α → Except Error α
  | .ok a => .ok a
  | .error e => .error (e.withField fieldNumber)

/-- `decode_unknown_field_at`, given what finds the end of a group: the offset of its end tag and
the offset after it. -/
def decodeFieldWith (bytes : List UInt8) (groupEnd : ℕ → ℕ → ℕ → Except Error (ℕ × ℕ))
    (offset maxRecursionDepth : ℕ) : Except Error DecodedUnknownField := do
  if offset ≥ bytes.length then
    throw { code := .unexpectedEof, offset }
  else
    let (tag, reader) ← probe readTag (sliceAt bytes offset)
    let valueOffset := reader.position
    let found (valueSize endOffset depth : ℕ) : DecodedUnknownField :=
      { field :=
          { tag
            encoded := subspan bytes offset (endOffset - offset)
            value := subspan bytes valueOffset valueSize
            groupRecursionDepth := depth }
        nextOffset := endOffset }
    match tag.wireType with
    | .varint => do
      let (_, reader) ← withFieldError tag.fieldNumber (probe readVarint reader)
      return found (reader.position - valueOffset) reader.position maxRecursionDepth
    | .i64 => do
      let (_, reader) ← withFieldError tag.fieldNumber (probe (Reader.skip 8) reader)
      return found 8 reader.position maxRecursionDepth
    | .len => do
      let (size, reader) ← withFieldError tag.fieldNumber (probe readLengthDelimitedSize reader)
      let payloadOffset := reader.position
      let (_, reader) ← withFieldError tag.fieldNumber (probe (Reader.skip size) reader)
      return {
        field :=
          { tag
            encoded := subspan bytes offset (reader.position - offset)
            value := subspan bytes payloadOffset size
            groupRecursionDepth := ({} : Limits).maxRecursionDepth }
        nextOffset := reader.position }
    | .sgroup => do
      if maxRecursionDepth = 0 then
        throw { code := .recursionLimit, offset := valueOffset, fieldNumber := tag.fieldNumber }
      else
        let (cursor, endOffset) ← groupEnd tag.fieldNumber (maxRecursionDepth - 1) valueOffset
        return found (cursor - valueOffset) endOffset (maxRecursionDepth - 1)
    | .i32 => do
      let (_, reader) ← withFieldError tag.fieldNumber (probe (Reader.skip 4) reader)
      return found 4 reader.position maxRecursionDepth
    | .egroup | .reserved6 | .reserved7 =>
      throw { code := .invalidWireType, offset := valueOffset, fieldNumber := tag.fieldNumber }

/-- The loop over the members of group `fieldNumber`. Every member has a tag, so the bytes left
bound the iterations. -/
def groupEndLoop (bytes : List UInt8) : ℕ → ℕ → ℕ → ℕ → Except Error (ℕ × ℕ)
  | 0, _, _, _ => throw { code := .diverged }
  | n + 1, fieldNumber, depth, cursor =>
    if cursor ≥ bytes.length then
      throw { code := .unexpectedEof, offset := cursor, fieldNumber }
    else do
      let (nestedTag, reader) ← withFieldError fieldNumber (probe readTag (sliceAt bytes cursor))
      if nestedTag.wireType = .egroup then
        if nestedTag.fieldNumber ≠ fieldNumber then
          throw { code := .invalidWireType, offset := reader.position, fieldNumber }
        else
          return (cursor, reader.position)
      else
        let nested ← withFieldError fieldNumber
          (decodeFieldWith bytes (groupEndLoop bytes n) cursor depth)
        groupEndLoop bytes n fieldNumber depth nested.nextOffset

def decodeUnknownFieldAt (bytes : List UInt8) (offset maxRecursionDepth : ℕ) :
    Except Error DecodedUnknownField :=
  decodeFieldWith bytes (groupEndLoop bytes (bytes.length + 1)) offset maxRecursionDepth

namespace UnknownFieldView

def fieldNumber (view : UnknownFieldView) : ℕ := view.tag.fieldNumber

def wireType (view : UnknownFieldView) : WireType := view.tag.wireType

private def wrongType (view : UnknownFieldView) : Error :=
  { code := .invalidArgument, fieldNumber := view.fieldNumber }

def varint (view : UnknownFieldView) : Except Error ℕ := do
  if view.wireType ≠ .varint then
    throw view.wrongType
  else
    let (decoded, reader) ← withFieldError view.fieldNumber (probe readVarint (sliceAt view.value 0))
    if !reader.eof then
      throw { code := .invalidArgument, offset := reader.position, fieldNumber := view.fieldNumber }
    else
      return decoded

def fixed32 (view : UnknownFieldView) : Except Error ℕ := do
  if view.wireType ≠ .i32 then
    throw view.wrongType
  else
    let (decoded, _) ← withFieldError view.fieldNumber (probe (readFixed 4) (sliceAt view.value 0))
    return decoded

def fixed64 (view : UnknownFieldView) : Except Error ℕ := do
  if view.wireType ≠ .i64 then
    throw view.wrongType
  else
    let (decoded, _) ← withFieldError view.fieldNumber (probe (readFixed 8) (sliceAt view.value 0))
    return decoded

def lengthDelimited (view : UnknownFieldView) : Except Error (List UInt8) :=
  if view.wireType ≠ .len then .error view.wrongType else .ok view.value

/-- The range of a group: its bytes and the levels left inside it. -/
def group (view : UnknownFieldView) : Except Error (List UInt8 × ℕ) :=
  if view.wireType ≠ .sgroup then .error view.wrongType
  else .ok (view.value, view.groupRecursionDepth)

/-- The view shows the record `t`, decoded with `d` levels. -/
def Shows (view : UnknownFieldView) (d : ℕ) : Tree → Prop
  | .varint n v => view.tag = ⟨n, .varint⟩ ∧ Varint view.value v
  | .fixed64 n v => view.tag = ⟨n, .i64⟩ ∧ view.value.length = 8 ∧ v = ofBytes view.value
  | .bytes n payload => view.tag = ⟨n, .len⟩ ∧ view.value = payload ∧ payload.length < 2 ^ 64
  | .group n ts => view.tag = ⟨n, .sgroup⟩ ∧ 0 < d ∧ view.groupRecursionDepth = d - 1 ∧
      view.value.length < view.encoded.length ∧ Records (Body (d - 1)) view.value ts
  | .fixed32 n v => view.tag = ⟨n, .i32⟩ ∧ view.value.length = 4 ∧ v = ofBytes view.value

end UnknownFieldView

@[simp] theorem sliceAt_rest (bytes : List UInt8) (o : ℕ) : (sliceAt bytes o).rest = bytes.drop o :=
  rfl

theorem probe_eq_ok {α : Type} {x : ReaderM α} {r : Reader} {p : α × Reader} :
    probe x r = .ok p ↔ x r = .ok p.1 p.2 := by
  unfold probe
  cases x r with
  | ok a r' => simp [Prod.ext_iff]
  | error e r' => simp

theorem probe_of_ok {α : Type} {x : ReaderM α} {r r' : Reader} {a : α} (h : x r = .ok a r') :
    probe x r = .ok (a, r') :=
  probe_eq_ok.mpr h

@[simp] theorem withFieldError_eq_ok {α : Type} {n : ℕ} {x : Except Error α} {a : α} :
    withFieldError n x = .ok a ↔ x = .ok a := by
  cases x <;> simp [withFieldError]

private theorem subspan_mid (bytes ks bs xs : List UInt8) {o : ℕ} (h : bytes.drop o = ks ++ (bs ++ xs)) :
    subspan bytes (o + ks.length) bs.length = bs := by
  rw [subspan, ← List.drop_drop, h, List.drop_left, List.take_left]

private theorem subspan_all (bytes ks bs xs : List UInt8) {o : ℕ}
    (h : bytes.drop o = ks ++ (bs ++ xs)) :
    subspan bytes o (o + ks.length + bs.length - o) = ks ++ bs := by
  have hl : o + ks.length + bs.length - o = (ks ++ bs).length := by
    rw [List.length_append]; omega
  rw [subspan, h, ← List.append_assoc, hl, List.take_left]

/-- A record with `d` levels starts at the offset, and `r` is what decoding it gives. -/
def RecordAt (bytes : List UInt8) (o d : ℕ) (r : DecodedUnknownField) : Prop :=
  ∃ ks bs xs t, bytes.drop o = ks ++ (bs ++ xs) ∧ Key ks t.number t.code ∧
    Body d t.number t.code bs t ∧ r.nextOffset = o + ks.length + bs.length ∧
    r.field.encoded = ks ++ bs ∧ r.field.Shows d t

/-- The members of group `f` start at the offset; `c` is where they end and where its end tag
does. -/
def GroupAt (bytes : List UInt8) (f d o : ℕ) (c : ℕ × ℕ) : Prop :=
  ∃ bs es xs ts, bytes.drop o = bs ++ (es ++ xs) ∧ Records (Body d) bs ts ∧ Key es f 4 ∧
    c = (o + bs.length, o + bs.length + es.length)

private theorem position_after {bs xs : List UInt8} {r : Reader} (h : r.rest = bs ++ xs) :
    (r.advance bs.length).position = r.position + bs.length :=
  r.position_advance (by rw [h]; simp)

/-- A tag has been read at the offset, and `r` is the reader behind it. -/
private structure TagAt (bytes : List UInt8) (o : ℕ) (tag : Tag) (ks : List UInt8) (r : Reader) :
    Prop where
  rest : bytes.drop o = ks ++ r.rest
  position : r.position = o + ks.length
  key : Key ks tag.fieldNumber tag.wireType.code

private theorem tagAt_of_readTag {bytes : List UInt8} {o : ℕ} {p : Tag × Reader}
    (h : probe readTag (sliceAt bytes o) = .ok p) : ∃ ks, TagAt bytes o p.1 ks p.2 := by
  obtain ⟨tag, r⟩ := p
  obtain ⟨ks, xs, hks, hkey, hr⟩ := readTag_eq_ok.mp (probe_eq_ok.mp h)
  dsimp only at hr
  subst hr
  refine ⟨ks, ?_, position_after hks, hkey⟩
  rw [Reader.rest_advance, hks, List.drop_left, ← hks, sliceAt_rest]

section Values

variable {bytes ks bs ys : List UInt8} {o d : ℕ} {f : ℕ} {w : WireType} {r : Reader}

/-- The bytes behind the tag as a part of those that are decoded. -/
private theorem TagAt.value (h : TagAt bytes o ⟨f, w⟩ ks r) (hbs : r.rest = bs ++ ys) :
    subspan bytes r.position bs.length = bs := by
  have hks := h.rest
  rw [hbs] at hks
  rw [h.position]
  exact subspan_mid bytes ks bs ys hks

/-- A record is found once its body is read behind its tag. -/
private theorem TagAt.record {t : Tree} {value : List UInt8} {depth e : ℕ}
    (h : TagAt bytes o ⟨f, w⟩ ks r) (hbs : r.rest = bs ++ ys) (he : e = r.position + bs.length)
    (hkey : t.number = f ∧ t.code = w.code) (hbody : Body d f w.code bs t)
    (hshows : (⟨⟨f, w⟩, ks ++ bs, value, depth⟩ : UnknownFieldView).Shows d t) :
    RecordAt bytes o d ⟨⟨⟨f, w⟩, subspan bytes o (e - o), value, depth⟩, e⟩ := by
  have hks := h.rest
  rw [hbs] at hks
  have hall := subspan_all bytes ks bs ys hks
  rw [h.position] at he
  subst he
  rw [hall]
  obtain ⟨rfl, hcode⟩ := hkey
  refine ⟨ks, bs, ys, t, hks, ?_, ?_, rfl, rfl, hshows⟩
  · rw [hcode]
    exact h.key
  · rw [hcode]
    exact hbody

/-- A value of fixed width. -/
private theorem TagAt.fixed {n : ℕ} {p : Unit × Reader} (h : TagAt bytes o ⟨f, w⟩ ks r)
    (hp : withFieldError f (probe (Reader.skip n) r) = .ok p) :
    ∃ bs ys, r.rest = bs ++ ys ∧ bs.length = n ∧ p.2.position = r.position + bs.length ∧
      subspan bytes r.position n = bs := by
  obtain ⟨bs, ys, hbs, hl, hr⟩ := Reader.skip_splits.mp (probe_eq_ok.mp (withFieldError_eq_ok.mp hp))
  rw [hr]
  refine ⟨bs, ys, hbs, hl, position_after hbs, ?_⟩
  rw [← hl]
  exact h.value hbs

end Values

private theorem decodeFieldWith_sound {bytes : List UInt8}
    {groupEnd : ℕ → ℕ → ℕ → Except Error (ℕ × ℕ)}
    (hg : ∀ f d o c, groupEnd f d o = .ok c → GroupAt bytes f d o c) {o d : ℕ}
    {r : DecodedUnknownField} (h : decodeFieldWith bytes groupEnd o d = .ok r) :
    RecordAt bytes o d r := by
  unfold decodeFieldWith at h
  by_cases ho : o ≥ bytes.length
  · rw [if_pos ho] at h; cases h
  rw [if_neg ho] at h
  obtain ⟨⟨⟨f, w⟩, r₁⟩, ht, h⟩ := except_bind_eq_ok.mp h
  obtain ⟨ks, htag⟩ := tagAt_of_readTag ht
  simp only at htag h
  cases w with
  | varint =>
    obtain ⟨⟨v, r₂⟩, hv, h⟩ := except_bind_eq_ok.mp h
    obtain ⟨bs, ys, hbs, hw, rfl⟩ :=
      readVarint_eq_ok.mp (probe_eq_ok.mp (withFieldError_eq_ok.mp hv))
    cases h
    have hend := position_after hbs
    have hvalue := htag.value hbs
    refine htag.record (t := .varint f v) hbs hend ⟨rfl, rfl⟩ ((Leaf.varint hw).body d) ⟨rfl, ?_⟩
    simp only [hend, Nat.add_sub_cancel_left, hvalue, hw]
  | i64 =>
    obtain ⟨⟨⟨⟩, r₂⟩, hv, h⟩ := except_bind_eq_ok.mp h
    obtain ⟨bs, ys, hbs, hl, hend, hvalue⟩ := htag.fixed hv
    cases h
    refine htag.record (t := .fixed64 f (ofBytes bs)) hbs hend ⟨rfl, rfl⟩ ((Leaf.fixed64 hl).body d)
      ⟨rfl, ?_⟩
    simp only [hvalue, hl, and_self]
  | len =>
    obtain ⟨⟨n, r₂⟩, hv, h⟩ := except_bind_eq_ok.mp h
    obtain ⟨ls, ys, hls, hw, rfl⟩ :=
      readLengthDelimitedSize_eq_ok.mp (probe_eq_ok.mp (withFieldError_eq_ok.mp hv))
    obtain ⟨⟨⟨⟩, r₃⟩, hv, h⟩ := except_bind_eq_ok.mp h
    obtain ⟨bs, zs, hbs, rfl, rfl⟩ :=
      Reader.skip_splits.mp (probe_eq_ok.mp (withFieldError_eq_ok.mp hv))
    cases h
    have hmid := position_after hls
    have hend := (position_after hbs).trans (congrArg (· + bs.length) hmid)
    rw [Reader.rest_advance, hls, List.drop_left] at hbs
    subst hbs
    have hpayload : subspan bytes (o + (ks ++ ls).length) bs.length = bs :=
      subspan_mid bytes (ks ++ ls) bs zs (by rw [htag.rest, hls, List.append_assoc])
    rw [List.length_append, ← Nat.add_assoc, ← htag.position] at hpayload
    have hrest : r₁.rest = (ls ++ bs) ++ zs := by rw [hls, List.append_assoc]
    refine htag.record (t := .bytes f bs) hrest ?_ ⟨rfl, rfl⟩ ((Leaf.bytes hw).body d) ⟨rfl, ?_⟩
    · rw [hend, List.length_append, Nat.add_assoc]
    · simp only [hmid, hpayload, hw.2.2, and_self]
  | sgroup =>
    by_cases hd : d = 0
    · simp only [hd] at h; cases h
    simp only [if_neg hd] at h
    obtain ⟨c, hc, h⟩ := except_bind_eq_ok.mp h
    obtain ⟨bs, es, ys, ts, hbs, hts, hes, rfl⟩ := hg _ _ _ _ hc
    rw [htag.position, ← List.drop_drop, htag.rest, List.drop_left] at hbs
    cases h
    obtain ⟨d, rfl⟩ : ∃ e, d = e + 1 := ⟨d - 1, by omega⟩
    rw [Nat.add_sub_cancel] at hts
    have hvalue := htag.value hbs
    have hrest : r₁.rest = (bs ++ es) ++ ys := by rw [hbs, List.append_assoc]
    refine htag.record (t := .group f ts) hrest ?_ ⟨rfl, rfl⟩
      (Or.inr ⟨rfl, ts, rfl, members_iff.mpr ⟨bs, es, rfl, hts, hes⟩⟩)
      ⟨rfl, Nat.succ_pos d, rfl, ?_, ?_⟩
    · rw [List.length_append, Nat.add_assoc]
    · have hkpos := htag.key.length_pos
      simp only [Nat.add_sub_cancel_left, hvalue, List.length_append]
      omega
    · simpa only [Nat.add_sub_cancel_left, hvalue, Nat.add_sub_cancel] using hts
  | i32 =>
    obtain ⟨⟨⟨⟩, r₂⟩, hv, h⟩ := except_bind_eq_ok.mp h
    obtain ⟨bs, ys, hbs, hl, hend, hvalue⟩ := htag.fixed hv
    cases h
    refine htag.record (t := .fixed32 f (ofBytes bs)) hbs hend ⟨rfl, rfl⟩ ((Leaf.fixed32 hl).body d)
      ⟨rfl, ?_⟩
    simp only [hvalue, hl, and_self]
  | egroup => cases h
  | reserved6 => cases h
  | reserved7 => cases h

private theorem groupEndLoop_sound {bytes : List UInt8} (n : ℕ) {f d o : ℕ} {c : ℕ × ℕ}
    (h : groupEndLoop bytes n f d o = .ok c) : GroupAt bytes f d o c := by
  induction n generalizing f d o c with
  | zero => cases h
  | succ n ih =>
    rw [groupEndLoop] at h
    by_cases ho : o ≥ bytes.length
    · rw [if_pos ho] at h; cases h
    rw [if_neg ho] at h
    obtain ⟨⟨tag, r₁⟩, ht, h⟩ := except_bind_eq_ok.mp h
    obtain ⟨ks, xs, hks, hkey, hr₁⟩ := readTag_eq_ok.mp (probe_eq_ok.mp (withFieldError_eq_ok.mp ht))
    simp only at hr₁ hkey h
    subst hr₁
    rw [sliceAt_rest] at hks
    by_cases he : tag.wireType = .egroup
    · rw [if_pos he] at h
      by_cases hf : tag.fieldNumber ≠ f
      · rw [if_pos hf] at h; cases h
      rw [if_neg hf] at h
      cases h
      rw [he, Decidable.not_not.mp hf] at hkey
      have hpos : ((sliceAt bytes o).advance ks.length).position = o + ks.length :=
        position_after hks
      exact ⟨[], ks, xs, [], hks, .nil, hkey, by rw [hpos]; rfl⟩
    · rw [if_neg he] at h
      obtain ⟨nested, hn, h⟩ := except_bind_eq_ok.mp h
      obtain ⟨ls, bs, ys, t, hls, hlkey, hb, hnext, -⟩ :=
        decodeFieldWith_sound (fun f d o c => ih) (withFieldError_eq_ok.mp hn)
      obtain ⟨cs, es, zs, ts, hcs, hts, hes, rfl⟩ := ih h
      rw [hnext, Nat.add_assoc, ← List.length_append, ← List.drop_drop, hls, ← List.append_assoc,
        List.drop_left] at hcs
      subst hcs
      refine ⟨ls ++ (bs ++ cs), es, zs, t :: ts, by rw [hls]; simp, .cons hlkey hb hts, hes, ?_⟩
      simp only [hnext, List.length_append, Nat.add_assoc]

theorem decodeUnknownFieldAt_sound {bytes : List UInt8} {o d : ℕ} {r : DecodedUnknownField}
    (h : decodeUnknownFieldAt bytes o d = .ok r) : RecordAt bytes o d r :=
  decodeFieldWith_sound (fun _ _ _ _ => groupEndLoop_sound _) h

/-- The record at an offset is the one the bytes there spell. -/
theorem RecordAt.shows {bytes ks bs xs : List UInt8} {o d : ℕ} {t : Tree} {r : DecodedUnknownField}
    (h : RecordAt bytes o d r) (hks : bytes.drop o = ks ++ (bs ++ xs))
    (hkey : Key ks t.number t.code) (hb : Body d t.number t.code bs t) :
    r.nextOffset = o + ks.length + bs.length ∧ r.field.encoded = ks ++ bs ∧ r.field.Shows d t := by
  obtain ⟨ls, cs, ys, u, hls, hlkey, hc, hnext, henc, hshows⟩ := h
  rw [hks] at hls
  obtain ⟨rfl, hn, hcode⟩ := hkey.unique hlkey hls
  rw [← hn, ← hcode] at hc
  obtain ⟨rfl, rfl⟩ := (body_canonical d).unique hb hc (List.append_cancel_left hls)
  exact ⟨hnext, henc, hshows⟩

private theorem readTag_at {bytes ks xs : List UInt8} {o f : ℕ} {w : WireType}
    (hks : bytes.drop o = ks ++ xs) (hkey : Key ks f w.code) :
    probe readTag (sliceAt bytes o) = .ok (⟨f, w⟩, (sliceAt bytes o).advance ks.length) :=
  probe_eq_ok.mpr (readTag_eq_ok.mpr ⟨ks, xs, hks, hkey, rfl⟩)

private theorem not_ge_length {bytes ks xs : List UInt8} {o : ℕ} (hks : bytes.drop o = ks ++ xs)
    (hpos : 0 < ks.length) : ¬ o ≥ bytes.length := by
  intro ho
  have hl := congrArg List.length hks
  rw [List.length_drop, List.length_append] at hl
  omega

private theorem decodeFieldWith_leaf {bytes ks bs xs : List UInt8} {o d f : ℕ} {w : WireType}
    {t : Tree} {g : ℕ → ℕ → ℕ → Except Error (ℕ × ℕ)} (hks : bytes.drop o = ks ++ (bs ++ xs))
    (hkey : Key ks f w.code) (hb : Leaf f w.code bs t) :
    ∃ r, decodeFieldWith bytes g o d = .ok r := by
  have hrest : ((sliceAt bytes o).advance ks.length).rest = bs ++ xs := by simp [hks]
  have skipped : ∀ n, bs.length = n → ∃ r, withFieldError f
      (probe (Reader.skip n) ((sliceAt bytes o).advance ks.length)) = .ok ((), r) := fun n hn =>
    ⟨_, withFieldError_eq_ok.mpr (probe_of_ok
      (Reader.skip_splits.mpr ⟨bs, xs, hrest, hn, rfl⟩))⟩
  rw [decodeFieldWith, if_neg (not_ge_length hks hkey.length_pos),
    except_bind_of_ok (readTag_at hks hkey)]
  generalize hc : w.code = c at hb
  cases hb with
  | varint hv =>
    obtain rfl : w = .varint := WireType.code_injective hc
    exact ⟨_, except_bind_of_ok (withFieldError_eq_ok.mpr (probe_of_ok
      (readVarint_eq_ok.mpr ⟨bs, xs, hrest, hv, rfl⟩)))⟩
  | fixed64 hl =>
    obtain rfl : w = .i64 := WireType.code_injective hc
    obtain ⟨r, hr⟩ := skipped 8 hl
    exact ⟨_, except_bind_of_ok hr⟩
  | @bytes ls payload hv =>
    obtain rfl : w = .len := WireType.code_injective hc
    rw [List.append_assoc] at hrest
    refine ⟨_, (except_bind_of_ok (withFieldError_eq_ok.mpr (probe_of_ok
      (readLengthDelimitedSize_eq_ok.mpr ⟨ls, _, hrest, hv, rfl⟩)))).trans
        (except_bind_of_ok (withFieldError_eq_ok.mpr (probe_of_ok
          (Reader.skip_splits.mpr ⟨payload, xs, ?_, rfl, rfl⟩))))⟩
    rw [Reader.rest_advance, hrest, List.drop_left]
  | fixed32 hl =>
    obtain rfl : w = .i32 := WireType.code_injective hc
    obtain ⟨r, hr⟩ := skipped 4 hl
    exact ⟨_, except_bind_of_ok hr⟩

/-- Within `d` levels, a record is decoded when the loop bounds exceed the bytes left. -/
private def DecodeComplete (bytes : List UInt8) (d : ℕ) : Prop :=
  ∀ (o n f : ℕ) (w : WireType) (ks bs xs : List UInt8) (t : Tree),
    bytes.drop o = ks ++ (bs ++ xs) → Key ks f w.code → Body d f w.code bs t →
    (bytes.drop o).length ≤ n → ∃ r, decodeFieldWith bytes (groupEndLoop bytes n) o d = .ok r

private theorem groupEndLoop_of_members {bytes : List UInt8} {d : ℕ}
    (ihd : DecodeComplete bytes d) {n f o : ℕ} {ms xs : List UInt8} {ts : List Tree}
    (h : Members (Body d) f ms ts) (hr : bytes.drop o = ms ++ xs)
    (hn : (bytes.drop o).length < n) : ∃ c, groupEndLoop bytes n f d o = .ok c := by
  induction h generalizing n o with
  | @close es hkey =>
    obtain ⟨n, rfl⟩ : ∃ j, n = j + 1 := ⟨n - 1, by omega⟩
    refine ⟨(o, ((sliceAt bytes o).advance es.length).position), ?_⟩
    rw [groupEndLoop, if_neg (not_ge_length hr hkey.length_pos),
      except_bind_of_ok (withFieldError_eq_ok.mpr (readTag_at (w := .egroup) hr hkey))]
    simp only [if_true, ne_eq, not_true, if_false]
    rfl
  | @member g c ks bs cs t ts hkey hb hts ih =>
    obtain ⟨n, rfl⟩ : ∃ j, n = j + 1 := ⟨n - 1, by omega⟩
    obtain ⟨w, rfl⟩ : ∃ w : WireType, c = w.code :=
      ⟨.ofCode c, (WireType.code_ofCode hkey.2.2.2).symm⟩
    have hw : w ≠ .egroup := by
      rintro rfl
      exact not_body_four d g bs t hb
    have hpos := hkey.length_pos
    simp only [List.append_assoc] at hr
    obtain ⟨r, hdec⟩ := ihd o n g w ks bs (cs ++ xs) t hr hkey hb (by omega)
    obtain ⟨rfl, hc⟩ := (body_canonical d).number_code hb
    rw [← hc] at hkey hb
    obtain ⟨hnext, -, -⟩ := (decodeFieldWith_sound (fun _ _ _ _ => groupEndLoop_sound n) hdec).shows
      hr hkey hb
    have hrest : bytes.drop r.nextOffset = cs ++ xs := by
      rw [hnext, ← List.drop_drop, ← List.drop_drop, hr, List.drop_left, List.drop_left]
    obtain ⟨e, he⟩ := ih (n := n) hrest (by
      have hl := congrArg List.length hr
      rw [hrest]
      simp only [List.length_append] at hl ⊢
      omega)
    refine ⟨e, ?_⟩
    rw [hc] at hkey
    rw [groupEndLoop, if_neg (not_ge_length hr hpos),
      except_bind_of_ok (withFieldError_eq_ok.mpr (readTag_at hr hkey))]
    simp only [if_neg hw]
    rw [except_bind_of_ok (withFieldError_eq_ok.mpr hdec), he]

private theorem decodeComplete (bytes : List UInt8) (d : ℕ) : DecodeComplete bytes d := by
  induction d with
  | zero => intro o n f w ks bs xs t hks hkey hb _; exact decodeFieldWith_leaf hks hkey hb
  | succ d ih =>
    intro o n f w ks bs xs t hks hkey hb hn
    rcases hb with hb | ⟨hc, ts, rfl, hm⟩
    · exact decodeFieldWith_leaf hks hkey hb
    obtain rfl : w = .sgroup := WireType.code_injective hc
    have hpos : ((sliceAt bytes o).advance ks.length).position = o + ks.length := position_after hks
    have hrest : bytes.drop (o + ks.length) = bs ++ xs := by
      rw [← List.drop_drop, hks, List.drop_left]
    have hl := congrArg List.length hks
    have hkpos := hkey.length_pos
    simp only [List.length_append] at hl
    obtain ⟨c, hloop⟩ := groupEndLoop_of_members ih (n := n) hm hrest
      (by rw [hrest, List.length_append]; omega)
    rw [decodeFieldWith, if_neg (not_ge_length hks hkpos), except_bind_of_ok (readTag_at hks hkey)]
    simp only [Nat.add_sub_cancel, Nat.succ_ne_zero, if_false, hpos]
    exact ⟨_, except_bind_of_ok hloop⟩

/-- A record at the offset is decoded, and shown by its view. -/
theorem decodeUnknownFieldAt_complete {bytes ks bs xs : List UInt8} {o d : ℕ} {t : Tree}
    (hks : bytes.drop o = ks ++ (bs ++ xs)) (hkey : Key ks t.number t.code)
    (hb : Body d t.number t.code bs t) :
    ∃ r, decodeUnknownFieldAt bytes o d = .ok r ∧ r.nextOffset = o + ks.length + bs.length ∧
      r.field.encoded = ks ++ bs ∧ r.field.Shows d t := by
  have hw := WireType.code_ofCode hkey.2.2.2
  obtain ⟨r, hr⟩ := decodeComplete bytes d o (bytes.length + 1) t.number (.ofCode t.code) ks bs xs t
    hks (by rwa [hw]) (by rwa [hw]) (by rw [List.length_drop]; omega)
  exact ⟨r, hr, (decodeUnknownFieldAt_sound hr).shows hks hkey hb⟩

end Protocyte
