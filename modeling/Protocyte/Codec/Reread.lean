import Protocyte.Codec.MapEntry
import Protocyte.Codec.PackedRun
import Protocyte.Codec.Same

/-! What is written is read again: the records of a field, handled in their order from a message
without the field, give the field the same value. -/
namespace Protocyte
open Foundation.Computation Foundation.Wire

variable {O : Type} {Sub : ℕ → Type}

section
variable (B : Bounds) (ops : MessageOps Sub) (R : (id : ℕ) → Sub id → Sub id → Prop)
variable (encoding : (id : ℕ) → Sub id → List UInt8)

/-- A new message that parses the encoding of `v` becomes the same as `v`, within the bounds. -/
def MessageOps.Rereads (id : ℕ) (v : Sub id) : Prop :=
  ∃ fresh, ops.create id = .ok fresh ∧ ∀ t : Parse (Sub id), t.obj = fresh →
    t.reader.rest = encoding id v → t.reader.Steady →
    Takes B (ops.mergeFieldsFrom id) t (encoding id v) fun _ o => R id v o

/-- What a value must be to be read again from its record. -/
def ValueKind.Rereads : (kind : ValueKind) → kind.Carrier Sub → Prop
  | scalar t, v => t.closedInvalid v = false
  | string, v => validateUtf8 v.val = true
  | bytes, _ => True
  | message id _, v => (encoding id v).length ≤ usizeMax ∧ ops.Rereads B R encoding id v

def SingularKind.Rereads : (kind : SingularKind) → kind.Carrier Sub → Prop
  | value kind, v => kind.Rereads B ops R encoding v
  | byteArray .., _ => True

end

namespace SpelledScalar

/-- A scalar as it is written. -/
def written (t : ScalarType) (v : t.Value) : SpelledScalar t where
  bytes := scalarBytes t v
  value := v
  raw := varintValue t v
  encodes := t.encodes_scalarBytes v
  closed h := by
    cases t with
    | closedEnum values =>
      have hraw := varint_encode (varintValue_lt (.closedEnum values) v)
      obtain ⟨n, hn, hv⟩ := ScalarType.encodes_scalarBytes (.closedEnum values) v
      have hsame : scalarBytes (.closedEnum values) v ++ ([] : List UInt8) =
        Foundation.Base128.encode (varintValue (.closedEnum values) v) ++ [] := rfl
      obtain ⟨-, rfl⟩ := hn.unique hraw hsame
      exact ⟨hraw, hv⟩
    | _ => cases h

theorem accepted_written {t : ScalarType} {v : t.Value} (h : t.closedInvalid v = false) :
    (written t v).accepted = some v := accepted_of_valid (by rw [← Bool.not_eq_true] at h; exact h)

theorem diverted_written {t : ScalarType} {v : t.Value} (h : t.closedInvalid v = false)
    (preserve : Bool) (f : ℕ) : (written t v).diverted preserve f = [] :=
  diverted_of_valid (by rw [← Bool.not_eq_true] at h; exact h) preserve f

end SpelledScalar

section
variable {B : Bounds} {ops : MessageOps Sub} {R : (id : ℕ) → Sub id → Sub id → Prop}
variable {encoding : (id : ℕ) → Sub id → List UInt8}

theorem valueTree_encode (n : ℕ) (kind : ValueKind) (v : kind.Carrier Sub) :
    (valueTree encoding n kind v).encode =
      key n kind.wireType.code ++ (valueTree encoding n kind v).body := by
  cases kind with
  | scalar t => cases t <;> rfl
  | string | bytes | message id boxed => rfl

theorem body_scalarTree (t : ScalarType) (n : ℕ) (v : t.Value) :
    (scalarTree t n v).body = scalarBytes t v := by
  cases t <;> rfl

theorem Reads.readScalarField (t : ScalarType) (f : ℕ) {bs : List UInt8} {v : t.Value}
    (h : t.Encodes bs v) : Reads (readScalarField t t.wireType f) bs v :=
  (Reads.expectWireType t.wireType f).bind (h.reads.withField f)

variable {s : Parse O} {f c : ℕ}

/-- An accepted scalar changes nothing but itself. -/
private theorem readWrittenScalar_takes (preserve : Bool) (unknown : Lens O Bytes) {t : ScalarType}
    (hf : 0 < f ∧ f ≤ maxNumber) {v : t.Value} (h : t.closedInvalid v = false)
    (hstored : B.Stores (unknown.get s.obj).val.length) :
    Takes B (readAcceptedScalar preserve unknown t (readScalarField t t.wireType f) f) s
      (scalarBytes t v) (fun a o => a = some v ∧ o = s.obj) c := by
  have hdiverted := SpelledScalar.diverted_written h preserve f
  refine (Takes.readAcceptedScalar preserve unknown hf (.written t v) (fun _ =>
    Reads.readScalarField t f (t.encodes_scalarBytes v)) ?_).mono ?_
  · rw [hdiverted]
    exact hstored
  rintro a o ⟨ha, storage, hstorage, ho⟩
  rw [hdiverted, List.append_nil] at hstorage
  rw [Subtype.ext hstorage, unknown.set_get] at ho
  exact ⟨ha.trans (SpelledScalar.accepted_written h), ho⟩

private theorem readWrittenText_takes (text : Bool) {v : Bytes}
    (h : text = true → validateUtf8 v.val = true) :
    Takes B (do
      onReader (expectWireType .len .len f)
      withField f (readLengthDelimited text) : ParseM O Bytes) s (Tree.bytes f v.val).body
      fun w o => w = v ∧ o = s.obj := by
  refine (Takes.onReader (Reads.expectWireType .len f)).before fun _ t _ ⟨_, ht⟩ => ?_
  rw [← ht]
  exact (Takes.readLengthDelimited (delimited_encode v.2) h).withField f

/-- A nested message, read into a new one. -/
private theorem readWrittenMessage_takes {id : ℕ} {v fresh : Sub id}
    (hfresh : ops.create id = .ok fresh) (hlen : (encoding id v).length ≤ usizeMax)
    (h : ops.Rereads B R encoding id v) :
    Takes B (readMessagePartial ops id f fresh : ParseM O (Sub id)) s
      (Tree.bytes f (encoding id v)).body fun w o => R id v w ∧ o = s.obj := by
  obtain ⟨fresh', hcreate, hreads⟩ := h
  obtain rfl : fresh' = fresh := by
    rw [hcreate] at hfresh
    exact Except.ok.inj hfresh
  exact Takes.readMessagePartial f (delimited_encode hlen) hreads

theorem readRepeatedValue_takes (preserve : Bool) (unknown : Lens O Bytes)
    (hf : 0 < f ∧ f ≤ maxNumber) {kind : ValueKind} {v : kind.Carrier Sub}
    (h : kind.Rereads B ops R encoding v) (hstored : B.Stores (unknown.get s.obj).val.length) :
    Takes B (readRepeatedValue ops preserve unknown kind.wireType f kind) s
      (valueTree encoding f kind v).body fun a o => (∃ w, a = some w ∧ kind.Same R v w) ∧
        o = s.obj := by
  cases kind with
  | scalar t =>
    change Takes B _ s (scalarTree t f v).body _ _
    rw [body_scalarTree]
    exact (readWrittenScalar_takes preserve unknown hf h hstored).mono fun _ _ hread =>
      ⟨⟨v, hread.1, rfl⟩, hread.2⟩
  | string =>
    refine (readWrittenText_takes true fun _ => h).andThen fun w _ _ hread => ?_
    exact .pure ⟨⟨w, rfl, hread.1.symm⟩, hread.2⟩
  | bytes =>
    refine (readWrittenText_takes false fun hfalse => absurd hfalse Bool.false_ne_true).andThen
      fun w _ _ hread => ?_
    exact .pure ⟨⟨w, rfl, hread.1.symm⟩, hread.2⟩
  | message id boxed =>
    obtain ⟨hlen, fresh, hcreate, hreads⟩ := h
    refine (Takes.onReader (Reads.expectWireType .len f)).before fun _ _ _ hexpected => ?_
    rw [hcreate]
    refine (readWrittenMessage_takes hcreate hlen ⟨fresh, hcreate, hreads⟩).andThen
      fun w _ _ hread => ?_
    exact .pure ⟨⟨w, rfl, hread.1⟩, hread.2.trans hexpected.2⟩

theorem readSingleValue_takes (preserve : Bool) (unknown : Lens O Bytes)
    (hf : 0 < f ∧ f ≤ maxNumber) {kind : SingularKind} {v : kind.Carrier Sub}
    (h : kind.Rereads B ops R encoding v) (hstored : B.Stores (unknown.get s.obj).val.length) :
    Takes B (readSingleValue ops preserve unknown kind.wireType f kind none) s
      (singularTree encoding f kind v).body fun a o => (∃ w, a = some w ∧ kind.Same R v w) ∧
        o = s.obj := by
  cases kind with
  | byteArray max fixed =>
    have hlen : v.val.length ≤ usizeMax := Nat.le_trans v.2.1 max.2
    refine (Takes.readBoundedBytes f (delimited_encode hlen)).andThen fun w t _ ⟨hw, ht⟩ => ?_
    exact .pure ⟨⟨w, rfl, hw.symm⟩, ht⟩
  | value kind =>
    have h : kind.Rereads B ops R encoding v := h
    have hrepeated := readRepeatedValue_takes (s := s) preserve unknown hf h hstored
    cases kind with
    | scalar t | string | bytes => exact hrepeated
    | message id boxed =>
      obtain ⟨hlen, fresh, hcreate, hreads⟩ := h
      refine (Takes.onReader (Reads.expectWireType .len f)).before fun _ t _ ⟨_, ht⟩ => ?_
      rw [hcreate]
      refine (readWrittenMessage_takes hcreate hlen ⟨fresh, hcreate, hreads⟩).andThen
        fun w u _ ⟨hw, hu⟩ => ?_
      refine (Takes.takeBlock _).before fun _ x _ hx => ?_
      exact .pure ⟨⟨w, rfl, hw⟩, by rw [hx, hu, ht]⟩

theorem singularTree_encode (n : ℕ) (kind : SingularKind) (v : kind.Carrier Sub) :
    (singularTree encoding n kind v).encode =
      key n kind.wireType.code ++ (singularTree encoding n kind v).body := by
  cases kind with
  | value kind => exact valueTree_encode n kind v
  | byteArray max fixed => rfl

/-- Values of a field that are read again. -/
def FieldState.Rereads (B : Bounds) (ops : MessageOps Sub)
    (R : (id : ℕ) → Sub id → Sub id → Prop) (encoding : (id : ℕ) → Sub id → List UInt8) (kind : FieldKind)
    (v : FieldState Sub kind) : Prop :=
  FieldState.All (ValueKind.Rereads B ops R encoding) kind v

/-- How a field is reached in a message: the step handles its records on the field's part, which may
count one for the tag. -/
structure Reaches (B : Bounds) (ops : MessageOps Sub) (preserve : Bool) (kind : FieldKind) (f : ℕ)
    (l : Lens O (Slot Sub kind)) (step : Tag → ParseM O Unit) : Prop where
  get_set (slot : Slot Sub kind) (o : O) : l.get (l.set slot o) = slot
  handles {w : WireType} {body : List UInt8} {o : O} {Q : Slot Sub kind → Prop}
    (hw : kind.allows w = true) (h : ∀ u : Parse (Slot Sub kind), u.obj = l.get o →
      Takes B (kind.parseCase ops preserve w f) u body (fun _ slot => Q slot) (1 + body.length)) :
    Handles B step (fun o' => ∃ slot, Q slot ∧ o' = l.set slot o) [key f w.code ++ body] o

section
variable {preserve : Bool} {kind : FieldKind} {l : Lens O (Slot Sub kind)}
variable {step : Tag → ParseM O Unit}

/-- The field is as in `v`, and the rest as in `o`. -/
def Restored (R : (id : ℕ) → Sub id → Sub id → Prop) (l : Lens O (Slot Sub kind))
    (v : FieldState Sub kind) (o o' : O) : Prop :=
  ∃ slot : Slot Sub kind, (FieldState.Same R kind v slot.value ∧
    slot.unknown = (l.get o).unknown) ∧ o' = l.set slot o

/-- The slot holds `v`, and the storage that it had. -/
abbrev Holding (R : (id : ℕ) → Sub id → Sub id → Prop) (v : FieldState Sub kind) (unknown : Bytes)
    (slot : Slot Sub kind) : Prop :=
  FieldState.Same R kind v slot.value ∧ slot.unknown = unknown

private theorem parseCase_implicit_takes (preserve : Bool) (hf : 0 < f ∧ f ≤ maxNumber)
    {kind : SingularKind} {hd : kind.hasDefault = true} {v : kind.Carrier Sub}
    (h : kind.Rereads B ops R encoding v) {u : Parse (Slot Sub (.implicit kind hd))}
    (hstored : B.Stores u.obj.unknown.val.length) :
    Takes B (FieldKind.parseCase ops preserve kind.wireType f (.implicit kind hd)) u
      (singularTree encoding f kind v).body
      fun _ slot => Holding R (v : FieldState Sub (.implicit kind hd)) u.obj.unknown slot := by
  refine (readSingleValue_takes preserve _ hf h hstored).andThen fun a t _ ⟨⟨w, ha, hw⟩, ht⟩ => ?_
  rw [ha]
  refine Takes.modifying _ rfl rfl ⟨hw, ?_⟩
  rw [ht]

private theorem parseCase_explicit_takes (preserve : Bool) (hf : 0 < f ∧ f ≤ maxNumber)
    {kind : SingularKind} {required : Bool} {oneof : Option ℕ} {v : kind.Carrier Sub}
    (h : kind.Rereads B ops R encoding v) {u : Parse (Slot Sub (.explicit kind required oneof))}
    (hnone : u.obj.value = none) (hstored : B.Stores u.obj.unknown.val.length) :
    Takes B (FieldKind.parseCase ops preserve kind.wireType f (.explicit kind required oneof)) u
      (singularTree encoding f kind v).body
      fun _ slot => Holding R (some v : FieldState Sub (.explicit kind required oneof))
        u.obj.unknown slot := by
  refine Takes.get_bind ?_
  rw [hnone]
  refine (readSingleValue_takes preserve _ hf h hstored).andThen fun a t _ ⟨⟨w, ha, hw⟩, ht⟩ => ?_
  rw [ha]
  refine Takes.modifying _ rfl rfl ⟨.some hw, ?_⟩
  rw [ht]

private theorem readRepeatedField_takes (preserve : Bool) (hf : 0 < f ∧ f ≤ maxNumber)
    {kind : ValueKind} {packed : Bool} {storage : Storage} {v : kind.Carrier Sub}
    (h : kind.Rereads B ops R encoding v) {u : Parse (Slot Sub (.repeated kind packed storage))}
    (hstored : B.Stores u.obj.unknown.val.length)
    (hroom : u.obj.value.val.length + 1 ≤ storage.capacity) :
    Takes B (readRepeatedField ops preserve kind.wireType f) u (valueTree encoding f kind v).body
      (fun _ slot => (∃ w, slot.value.val = u.obj.value.val ++ [w] ∧ kind.Same R v w) ∧
        slot.unknown = u.obj.unknown) (1 + (valueTree encoding f kind v).body.length) := by
  refine (Takes.consume _ _ (Nat.le_refl 1)).charge (Nat.le_refl _) fun _ t _ ht => ?_
  rw [← ht] at hstored hroom ⊢
  refine (readRepeatedValue_takes preserve _ hf h hstored).andThen
    fun a x _ ⟨⟨w, ha, hw⟩, hx⟩ => ?_
  rw [ha]
  rw [← hx] at hroom ⊢
  have hpush := Items.pushBack_exits false w { ctx := x.ctx, obj := x.obj.value }
  refine (Takes.zoom Slot.valueLens (Takes.onBound
    (Q := fun _ items => items.val = x.obj.value.val ++ [w]) hpush
      fun hs => ⟨hs.grants, hroom⟩)).mono ?_
  rintro _ slot ⟨items, hitems, rfl⟩
  exact ⟨⟨w, hitems, hw⟩, rfl⟩

/-- What an occurrence of the value holds. -/
def ValueKind.given (encoding : (id : ℕ) → Sub id → List UInt8) : (kind : ValueKind) →
    kind.Carrier Sub → kind.Given
  | scalar _, v => v
  | string, v | bytes, v => v
  | message id _, v => encoding id v

private theorem encodes_key (key : KeyKind) (k : key.Carrier Sub)
    (h : key.value.Rereads B ops R encoding k) :
    key.Encodes (valueTree encoding 1 key.value k).body k := by
  cases key with
  | scalar t ht =>
    have hbytes : (valueTree encoding 1 (.scalar t) k).body = scalarBytes t k :=
      body_scalarTree t 1 k
    have hencodes : t.Encodes (scalarBytes t k) k := t.encodes_scalarBytes k
    rw [← hbytes] at hencodes
    exact hencodes
  | string => exact ⟨delimited_encode k.2, h⟩

private theorem encodes_value {kind : ValueKind} {v : kind.Carrier Sub}
    (h : kind.Rereads B ops R encoding v) :
    kind.Encodes (valueTree encoding 2 kind v).body (kind.given encoding v) := by
  cases kind with
  | scalar t =>
    change t.Encodes (scalarTree t 2 v).body v
    rw [body_scalarTree]
    exact t.encodes_scalarBytes v
  | string => exact ⟨delimited_encode v.2, h⟩
  | bytes => exact delimited_encode v.2
  | message id boxed => exact delimited_encode h.1

/-- The two fields an entry is written with. -/
private def writtenEntry {key : KeyKind} {value : ValueKind}
    {e : key.Carrier Sub × value.Carrier Sub}
    (hk : key.value.Rereads B ops R encoding e.1) (hv : value.Rereads B ops R encoding e.2) :
    List (SpelledField Sub key value) :=
  [⟨.key e.1, _, .key (key_canonical Nat.one_pos (by decide) key.value.wireType.code_lt)
      (encodes_key key e.1 hk)⟩,
    ⟨.value (value.given encoding e.2), _, .value (key_canonical Nat.two_pos (by decide)
      value.wireType.code_lt) (encodes_value hv)⟩]

private theorem payload_writtenEntry {key : KeyKind} {value : ValueKind}
    {e : key.Carrier Sub × value.Carrier Sub} (hk : key.value.Rereads B ops R encoding e.1)
    (hv : value.Rereads B ops R encoding e.2) : payload (writtenEntry hk hv) =
      encodeAll [valueTree encoding 1 key.value e.1, valueTree encoding 2 value e.2] := by
  rw [encodeAll_cons, encodeAll_singleton, valueTree_encode, valueTree_encode]
  change _ ++ (_ ++ []) = _
  rw [List.append_nil]

private theorem same_of_givesAll {kind : ValueKind} {v init w : kind.Carrier Sub}
    (h : kind.Rereads B ops R encoding v) (hinit : kind.temporary ops = .ok init)
    (hw : kind.GivesAll ops [kind.given encoding v] init w) : kind.Same R v w := by
  cases kind with
  | scalar t | string | bytes => exact hw.symm
  | message id boxed =>
    obtain ⟨_, fresh, hcreate, hreads⟩ := h
    obtain ⟨between, ⟨s, t, hs, hrest, hsteady, ht, hbetween⟩, hbetween'⟩ := hw
    obtain rfl : fresh = init := by
      have heq : ops.create id = .ok init := hinit
      rw [hcreate] at heq
      exact Except.ok.inj heq
    have htakes := hreads s hs hrest hsteady
      ⟨[], by rw [hrest, List.append_nil]; rfl⟩
    have hsame := (htakes.ok ht).2
    rw [hbetween, ← hbetween'] at hsame
    exact hsame

private theorem acceptable_writtenEntry {key : KeyKind} {value : ValueKind}
    {e : key.Carrier Sub × value.Carrier Sub} (hk : key.value.Rereads B ops R encoding e.1)
    (hv : value.Rereads B ops R encoding e.2) {init : value.Carrier Sub}
    (hinit : value.temporary ops = .ok init) : Acceptable B ops (writtenEntry hk hv) init := by
  rintro pre f given ⟨post, hpost⟩ hgiven v hall
  have haccepts (hall : value.GivesAll ops [] init v) :
      value.Accepts B ops (value.given encoding e.2) v := by
    cases value with
    | scalar t | string | bytes => trivial
    | message id boxed =>
      obtain ⟨_, fresh, hcreate, hreads⟩ := hv
      obtain rfl : fresh = v := by
        have heq : ops.create id = .ok init := hinit
        have hinit : v = init := hall
        rw [hcreate, ← hinit] at heq
        exact Except.ok.inj heq
      exact fun t ht hrest hsteady => (hreads t ht hrest hsteady).mono fun _ _ _ => trivial
  match pre, hpost with
  | [], hpost =>
    cases hpost
    cases hgiven
  | [_], hpost =>
    cases hpost
    cases hgiven
    exact haccepts hall
  | _ :: _ :: pre, hpost =>
    have hlen := congrArg List.length hpost
    simp [writtenEntry] at hlen

/-- The map holds the entries. -/
private def HoldsEntries (R : (id : ℕ) → Sub id → Sub id → Prop) {key : KeyKind} {value : ValueKind}
    {maxBuckets : Usize} (unknown : Bytes) (entries : List (key.Carrier Sub × value.Carrier Sub))
    (slot : Slot Sub (.map key value maxBuckets)) : Prop :=
  (∀ k, Option.Rel (value.Same R) ((entries.find? fun e => MapKey.equal e.1 k).map Prod.snd)
    (slot.value.val.lookup k)) ∧ slot.unknown = unknown ∧ slot.value.val.size ≤ entries.length

private theorem readWrittenEntry_takes (preserve : Bool) (hf : 0 < f ∧ f ≤ maxNumber)
    {key : KeyKind} {value : ValueKind} {maxBuckets : Usize} {unknown : Bytes}
    {pre : List (key.Carrier Sub × value.Carrier Sub)} {e : key.Carrier Sub × value.Carrier Sub}
    (hk : key.value.Rereads B ops R encoding e.1) (hv : value.Rereads B ops R encoding e.2)
    (hlen : (encodeAll [valueTree encoding 1 key.value e.1,
      valueTree encoding 2 value e.2]).length ≤ usizeMax)
    (hnew : ∀ e' ∈ pre, ¬MapKey.equal e'.1 e.1 = true)
    {u : Parse (Slot Sub (.map key value maxBuckets))} (hpre : HoldsEntries R unknown pre u.obj)
    (hfits : B.room → HashMap.Fits maxBuckets.val (pre ++ [e]).length) :
    Takes B (readMap ops preserve .len f) u (entryTree encoding f key value e).body
      (fun _ slot => HoldsEntries R unknown (pre ++ [e]) slot)
      (1 + (entryTree encoding f key value e).body.length) := by
  obtain ⟨init, hinit⟩ : ∃ init, value.temporary ops = .ok init := by
    cases value with
    | scalar t | string | bytes => exact ⟨_, rfl⟩
    | message id boxed =>
      obtain ⟨_, fresh, hcreate, _⟩ := hv
      exact ⟨fresh, hcreate⟩
  have hd : Delimited (entryTree encoding f key value e).body (payload (writtenEntry hk hv)) := by
    rw [payload_writtenEntry]
    exact delimited_encode hlen
  have hdiverts : ¬Diverts (writtenEntry hk hv) := by
    rintro ⟨given, hgiven, hundeclared⟩
    cases hgiven
    cases value with
    | scalar t =>
      have hvalid : t.closedInvalid e.2 = false := hv
      have hundeclared : t.closedInvalid e.2 = true := hundeclared
      rw [hvalid] at hundeclared
      cases hundeclared
    | string | bytes | message id boxed => cases hundeclared
  have hsize : u.obj.value.val.size + 1 ≤ (pre ++ [e]).length := by
    rw [List.length_append]
    exact Nat.add_le_add_right hpre.2.2 1
  have hfits : u.obj.Fits B preserve f (writtenEntry hk hv) :=
    ⟨fun _ hroom => (hfits hroom).mono hsize, fun hd => absurd hd hdiverts⟩
  refine (readMap_takes preserve hf hd (acceptable_writtenEntry hk hv hinit) hinit hfits).mono ?_
  intro _ slot hinserts
  obtain ⟨hunknown, w, hw, hlookup⟩ := hinserts.inserted hdiverts
  refine ⟨fun k => ?_, hunknown.trans hpre.2.1, Nat.le_trans hinserts.size_le hsize⟩
  have hsame : value.Same R e.2 w := same_of_givesAll hv hinit hw
  have hlast : lastKey (writtenEntry hk hv) = e.1 := rfl
  rw [hlookup, hlast, List.find?_append]
  by_cases he : MapKey.equal e.1 k = true
  · have hfound : [e].find? (fun e' => MapKey.equal e'.1 k) = some e := List.find?_cons_of_pos he
    have hnone : pre.find? (fun e' => MapKey.equal e'.1 k) = none := by
      refine List.find?_eq_none.mpr fun e' he' heq => hnew e' he' ?_
      exact LawfulMapKey.trans heq (LawfulMapKey.symm he)
    rw [hnone, if_pos he, Option.none_or, hfound]
    exact .some hsame
  · have hfound : [e].find? (fun e' => MapKey.equal e'.1 k) = none := List.find?_cons_of_neg he
    rw [if_neg he, hfound, Option.or_none]
    exact hpre.1 k

private theorem parseCase_repeated (ops : MessageOps Sub) (preserve : Bool) (f : ℕ)
    (kind : ValueKind) (packed : Bool) (storage : Storage) :
    FieldKind.parseCase ops preserve kind.wireType f (.repeated kind packed storage) =
      readRepeatedField ops preserve kind.wireType f := by
  cases kind with
  | scalar t => cases t <;> rfl
  | string | bytes | message id boxed => rfl

theorem bytes_payload_le {n N : ℕ} {payload : List UInt8}
    (h : (Tree.bytes n payload).encode.length ≤ N) : payload.length ≤ N := by
  rw [bytesTree_encode, List.length_append, List.length_append] at h
  omega

private theorem parseCase_packed_takes (ops : MessageOps Sub) (preserve : Bool)
    (hf : 0 < f ∧ f ≤ maxNumber) {t : ScalarType}
    {packed : Bool} {storage : Storage} {items : List t.Value}
    (hv : ∀ v ∈ items, t.closedInvalid v = false)
    (hlen : (items.flatMap (scalarBytes t)).length ≤ usizeMax)
    {u : Parse (Slot Sub (.repeated (.scalar t) packed storage))}
    (hstored : B.Stores u.obj.unknown.val.length)
    (hroom : u.obj.value.val.length + items.length ≤ storage.capacity) :
    Takes B (FieldKind.parseCase ops preserve .len f (.repeated (.scalar t) packed storage)) u
      (Tree.bytes f (items.flatMap (scalarBytes t))).body
      fun _ slot => slot.value.val = u.obj.value.val ++ items ∧ slot.unknown = u.obj.unknown := by
  have hrun : runBytes (items.map (SpelledScalar.written t)) = items.flatMap (scalarBytes t) := by
    unfold runBytes
    rw [List.flatMap_map]
    rfl
  have haccepted : (items.map (SpelledScalar.written t)).filterMap SpelledScalar.accepted =
      items := by
    rw [List.filterMap_map]
    exact (List.filterMap_congr fun v hm => SpelledScalar.accepted_written (hv v hm)).trans
      (List.filterMap_some)
  have hdiverted : (items.map (SpelledScalar.written t)).flatMap
      (SpelledScalar.diverted preserve f) = [] := by
    rw [List.flatMap_map]
    exact List.flatMap_eq_nil_iff.mpr fun v hm =>
      SpelledScalar.diverted_written (hv v hm) preserve f
  have hd : Delimited (Tree.bytes f (items.flatMap (scalarBytes t))).body
      (runBytes (items.map (SpelledScalar.written t))) := by
    rw [hrun]
    exact delimited_encode hlen
  have hparse : FieldKind.parseCase ops preserve .len f (.repeated (.scalar t) packed storage) =
      readPackedField preserve f := rfl
  rw [hparse]
  have hadmits : Slot.Admits B preserve f (items.map (SpelledScalar.written t)) u.obj := by
    refine ⟨fun _ => ?_, ?_⟩
    · rw [haccepted]
      exact hroom
    · rw [hdiverted]
      exact hstored
  refine (readPackedField_takes preserve hf _ hd hadmits).mono fun _ slot h => ⟨?_, ?_⟩
  · rw [h.values, haccepted]
  · have hunknown := h.unknown
    rw [hdiverted, List.append_nil] at hunknown
    exact Subtype.ext hunknown

/-- Before the records of a field: its member is not set, and the storage is within the limit. -/
structure Awaits (B : Bounds) (ops : MessageOps Sub) (preserve : Bool) (kind : FieldKind) (f : ℕ)
    (l : Lens O (Slot Sub kind)) (step : Tag → ParseM O Unit) (o : O) : Prop where
  reaches : Reaches B ops preserve kind f l step
  number : 0 < f ∧ f ≤ maxNumber
  value : (l.get o).value = .default kind
  stored : B.Stores (l.get o).unknown.val.length

/-- Records of one field that is no member of a oneof. -/
private theorem handles_each (hreaches : Reaches B ops preserve kind f l step)
    {o : O} (hlaw : ∀ a b, l.set b (l.set a o) = l.set b o) {α : Type} {w : WireType}
    (hw : kind.allows w = true) {body : α → List UInt8} {items : List α}
    {P : List α → Slot Sub kind → Prop}
    (hstep : ∀ pre a (u : Parse (Slot Sub kind)), pre ++ [a] <+: items → P pre u.obj →
      Takes B (kind.parseCase ops preserve w f) u (body a) (fun _ slot => P (pre ++ [a]) slot)
        (1 + (body a).length))
    (hP : P [] (l.get o)) :
    Handles B step (fun o' => ∃ slot, P items slot ∧ o' = l.set slot o)
      (items.map fun a => key f w.code ++ body a) o := by
  have hrest (post pre : List α) (slot : Slot Sub kind) (hitems : pre ++ post = items)
      (hslot : P pre slot) : Handles B step (fun o' => ∃ slot, P items slot ∧ o' = l.set slot o)
        (post.map fun a => key f w.code ++ body a) (l.set slot o) := by
    induction post generalizing pre slot with
    | nil =>
      rw [List.append_nil] at hitems
      rw [hitems] at hslot
      exact ⟨slot, hslot, rfl⟩
    | cons a post ih =>
      have hpre : pre ++ [a] ++ post = items := by rw [← hitems, List.append_assoc]; rfl
      refine Handles.cons ((hreaches.handles hw (Q := P (pre ++ [a])) ?_).mono ?_)
      · intro u hu
        rw [hreaches.get_set] at hu
        exact hstep pre a u ⟨post, hpre⟩ (by rw [hu]; exact hslot)
      · rintro o' ⟨slot', hslot', rfl⟩
        rw [hlaw]
        exact ih (pre ++ [a]) slot' hpre hslot'
  have h := hrest items [] (l.get o) rfl hP
  rw [l.set_get] at h
  exact h

variable {o : O}

private theorem handles_none {v : FieldState Sub kind} (h : Awaits B ops preserve kind f l step o)
    (hsame : FieldState.Same R kind v (.default kind)) :
    Handles B step (Restored R l v o) [] o := by
  rw [← h.value] at hsame
  exact ⟨l.get o, ⟨hsame, rfl⟩, (l.set_get o).symm⟩

private theorem handles_one {v : FieldState Sub kind} (h : Awaits B ops preserve kind f l step o)
    {t : Tree} {w : WireType} (hw : kind.allows w = true) (ht : t.encode = key f w.code ++ t.body)
    (htakes : ∀ u : Parse (Slot Sub kind), u.obj = l.get o →
      Takes B (kind.parseCase ops preserve w f) u t.body
        fun _ slot => Holding R v (l.get o).unknown slot) :
    Handles B step (Restored R l v o) [t.encode] o := by
  rw [ht]
  exact h.reaches.handles hw fun u hu => (htakes u hu).le (Nat.le_add_left _ _)

/-- A field that is not written has its default. -/
private theorem same_of_not_present {kind : SingularKind} {hd : kind.hasDefault = true}
    {v : kind.Carrier Sub} (h : FieldState.isPresent kind v = false) :
    FieldState.Same R (.implicit kind hd) v (.default (.implicit kind hd)) := by
  cases kind with
  | byteArray max fixed =>
    cases fixed with
    | true => cases hd
    | false =>
      have hnil : v.val = [] := by simpa [FieldState.isPresent] using h
      exact Subtype.ext hnil
  | value kind =>
    cases kind with
    | scalar t =>
      have hzero : BitVec.toNat v = 0 := by simpa [FieldState.isPresent] using h
      exact BitVec.eq_of_toNat_eq hzero
    | string | bytes =>
      have hnil : v.val = [] := by simpa [FieldState.isPresent] using h
      exact Subtype.ext hnil
    | message id boxed => cases hd

private theorem handles_implicit {kind : SingularKind} {hd : kind.hasDefault = true}
    {l : Lens O (Slot Sub (.implicit kind hd))} {v : FieldState Sub (.implicit kind hd)}
    (h : Awaits B ops preserve (.implicit kind hd) f l step o)
    (hv : FieldState.Rereads B ops R encoding (.implicit kind hd) v) :
    Handles B step (Restored R l v o)
      ((FieldState.trees encoding f (.implicit kind hd) v).map Tree.encode) o := by
  have hv : kind.Rereads B ops R encoding v := by
    cases kind with
    | value kind => exact hv
    | byteArray max fixed => trivial
  have htrees : FieldState.trees encoding f (.implicit kind hd) v =
      (FieldState.implicitValue kind v).toList.map (singularTree encoding f kind) := rfl
  rw [htrees]
  cases hp : FieldState.isPresent kind v with
  | true =>
    have hvalue : FieldState.implicitValue kind v = some v := if_pos hp
    rw [hvalue]
    refine handles_one h (by simp [FieldKind.allows]) (singularTree_encode f kind v) fun u hu => ?_
    have hstored := h.stored
    rw [← hu] at hstored ⊢
    exact parseCase_implicit_takes preserve h.number hv hstored
  | false =>
    have hvalue : FieldState.implicitValue kind v = none := if_neg (by rw [hp]; simp)
    rw [hvalue]
    exact handles_none h (same_of_not_present hp)

private theorem handles_explicit {kind : SingularKind} {required : Bool} {oneof : Option ℕ}
    {l : Lens O (Slot Sub (.explicit kind required oneof))}
    {v : FieldState Sub (.explicit kind required oneof)}
    (h : Awaits B ops preserve (.explicit kind required oneof) f l step o)
    (hv : FieldState.Rereads B ops R encoding (.explicit kind required oneof) v) :
    Handles B step (Restored R l v o)
      ((FieldState.trees encoding f (.explicit kind required oneof) v).map Tree.encode) o := by
  cases v with
  | none => exact handles_none h .none
  | some v =>
    have hv : kind.Rereads B ops R encoding v := by
      cases kind with
      | value kind => exact hv v rfl
      | byteArray max fixed => trivial
    refine handles_one h (by simp [FieldKind.allows]) (singularTree_encode f kind v) fun u hu => ?_
    have hstored := h.stored
    have hnone := h.value
    rw [← hu] at hstored hnone ⊢
    exact parseCase_explicit_takes preserve h.number hv hnone hstored

private theorem handles_packed {t : ScalarType} {storage : Storage}
    {l : Lens O (Slot Sub (.repeated (.scalar t) true storage))}
    {v : FieldState Sub (.repeated (.scalar t) true storage)}
    (h : Awaits B ops preserve (.repeated (.scalar t) true storage) f l step o)
    (hv : FieldState.Rereads B ops R encoding (.repeated (.scalar t) true storage) v)
    (hlen : ∀ r ∈ FieldState.trees encoding f (.repeated (.scalar t) true storage) v,
      r.encode.length ≤ usizeMax) :
    Handles B step (Restored R l v o)
      ((FieldState.trees encoding f (.repeated (.scalar t) true storage) v).map Tree.encode) o := by
  cases hempty : v.val.isEmpty with
  | true =>
    have htrees : FieldState.trees encoding f (.repeated (.scalar t) true storage) v = [] :=
      if_pos hempty
    rw [htrees]
    refine handles_none h ?_
    change List.Forall₂ _ v.val []
    rw [List.isEmpty_iff.mp hempty]
    exact .nil
  | false =>
    have htrees : FieldState.trees encoding f (.repeated (.scalar t) true storage) v =
        [.bytes f (v.val.flatMap (scalarBytes t))] := if_neg (by rw [hempty]; simp)
    rw [htrees] at hlen ⊢
    have hle := bytes_payload_le (hlen _ List.mem_cons_self)
    refine handles_one h (w := .len) (by simp [FieldKind.allows]) rfl fun u hu => ?_
    have hnil : u.obj.value.val = [] := by rw [hu, h.value]; rfl
    have hstored := h.stored
    have hroom : u.obj.value.val.length + v.val.length ≤ storage.capacity := by
      rw [hnil, List.length_nil, Nat.zero_add]
      exact v.2
    rw [← hu] at hstored ⊢
    refine (parseCase_packed_takes ops preserve h.number hv hle hstored hroom).mono
      fun _ slot ⟨hvalue, hunknown⟩ => ⟨?_, hunknown⟩
    rw [hnil] at hvalue
    change List.Forall₂ _ v.val slot.value.val
    rw [hvalue]
    exact List.forall₂_same.mpr fun _ _ => rfl

private theorem handles_values {kind : ValueKind} {packed : Bool} {storage : Storage}
    {l : Lens O (Slot Sub (.repeated kind packed storage))}
    {v : FieldState Sub (.repeated kind packed storage)}
    (h : Awaits B ops preserve (.repeated kind packed storage) f l step o)
    (hlaw : ∀ a b : Slot Sub (.repeated kind packed storage), l.set b (l.set a o) = l.set b o)
    (hv : FieldState.Rereads B ops R encoding (.repeated kind packed storage) v) :
    Handles B step (Restored R l v o)
      ((v.val.map (valueTree encoding f kind)).map Tree.encode) o := by
  have hbytes : (v.val.map (valueTree encoding f kind)).map Tree.encode =
      v.val.map fun w => key f kind.wireType.code ++ (valueTree encoding f kind w).body := by
    rw [List.map_map]
    exact List.map_congr_left fun w _ => valueTree_encode f kind w
  rw [hbytes]
  refine handles_each h.reaches hlaw (P := fun pre slot =>
    List.Forall₂ (kind.Same R) pre slot.value.val ∧ slot.unknown = (l.get o).unknown)
    (by cases kind <;> simp [FieldKind.allows, ValueKind.wireType]) ?_ ?_
  · intro pre a u hpre ⟨hvalues, hunknown⟩
    have ha : kind.Rereads B ops R encoding a := hv a (hpre.subset (by simp))
    have hroom : u.obj.value.val.length + 1 ≤ storage.capacity := by
      have hle := Nat.le_trans hpre.length_le v.2
      rw [List.length_append] at hle
      rw [← hvalues.length_eq]
      exact hle
    have hstored := h.stored
    rw [← hunknown] at hstored
    rw [parseCase_repeated]
    refine (readRepeatedField_takes preserve h.number ha hstored hroom).mono ?_
    rintro _ slot ⟨⟨w, hw, hsame⟩, hslot⟩
    rw [hw, hslot]
    exact ⟨List.rel_append hvalues (.cons hsame .nil), hunknown⟩
  · rw [h.value]
    exact ⟨.nil, rfl⟩

private theorem handles_entries {key : KeyKind} {value : ValueKind} {maxBuckets : Usize}
    {l : Lens O (Slot Sub (.map key value maxBuckets))}
    {v : FieldState Sub (.map key value maxBuckets)}
    (h : Awaits B ops preserve (.map key value maxBuckets) f l step o)
    (hlaw : ∀ a b : Slot Sub (.map key value maxBuckets), l.set b (l.set a o) = l.set b o)
    (hv : FieldState.Rereads B ops R encoding (.map key value maxBuckets) v)
    (hlen : ∀ r ∈ FieldState.trees encoding f (.map key value maxBuckets) v,
      r.encode.length ≤ usizeMax)
    (hfits : B.room → HashMap.Fits maxBuckets.val v.val.entries.length) :
    Handles B step (Restored R l v o)
      ((FieldState.trees encoding f (.map key value maxBuckets) v).map Tree.encode) o := by
  have hdistinct := v.2.distinct.pairwise
  have hbytes : (FieldState.trees encoding f (.map key value maxBuckets) v).map Tree.encode =
      v.val.entries.map fun e =>
        Foundation.Wire.key f WireType.len.code ++ (entryTree encoding f key value e).body := by
    change (v.val.entries.map (entryTree encoding f key value)).map Tree.encode = _
    rw [List.map_map]
    rfl
  rw [hbytes]
  refine (handles_each h.reaches hlaw (w := .len) (P := HoldsEntries R (l.get o).unknown) rfl
    ?_ ?_).mono fun o' ⟨slot, ⟨hlookup, hunknown, _⟩, ho'⟩ => ⟨slot, ⟨hlookup, hunknown⟩, ho'⟩
  · intro pre e u hpre hholds
    have he : e ∈ v.val.entries := hpre.subset (by simp)
    have hall := hv e he
    have htree : entryTree encoding f key value e ∈
        FieldState.trees encoding f (.map key value maxBuckets) v := List.mem_map_of_mem he
    refine readWrittenEntry_takes preserve h.number hall.1 hall.2 (bytes_payload_le (hlen _ htree))
      ?_ hholds fun hroom => (hfits hroom).mono hpre.length_le
    intro e' he' heq
    have hpair := hdistinct.sublist hpre.sublist
    rw [List.pairwise_append] at hpair
    exact hpair.2.2 e' he' e (by simp) heq
  · rw [HoldsEntries, h.value]
    exact ⟨fun k => .none, rfl, Nat.le_refl _⟩

/-- The buckets of a map have room for its entries. -/
def FieldState.Fits (B : Bounds) : (kind : FieldKind) → FieldState Sub kind → Prop
  | .map _ _ maxBuckets, v => B.room → HashMap.Fits maxBuckets.val v.val.entries.length
  | .implicit .., _ | .explicit .., _ | .repeated .., _ => True

/-- The records of a field, handled on a part of `o` without the field, restore it. -/
theorem FieldState.handles (h : Awaits B ops preserve kind f l step o) {v : FieldState Sub kind}
    (hlaw : (kind.oneof ≠ none → FieldState.isSet kind v = true) →
      ∀ a b : Slot Sub kind, l.set b (l.set a o) = l.set b o)
    (hv : FieldState.Rereads B ops R encoding kind v) (hfits : FieldState.Fits B kind v)
    (hlen : ∀ t ∈ FieldState.trees encoding f kind v, t.encode.length ≤ usizeMax) :
    Handles B step (Restored R l v o) ((FieldState.trees encoding f kind v).map Tree.encode) o := by
  cases kind with
  | implicit kind hd => exact handles_implicit h hv
  | explicit kind required oneof => exact handles_explicit h hv
  | «repeated» kind packed storage =>
    have hvalues := handles_values h (hlaw fun h => absurd rfl h) hv
    cases kind with
    | string | bytes | message id boxed => exact hvalues
    | scalar t =>
      cases packed with
      | false => exact hvalues
      | true => exact handles_packed h hv hlen
  | map key value maxBuckets =>
    exact handles_entries h (hlaw fun h => absurd rfl h) hv hlen hfits

end

end

end Protocyte
