import Protocyte.Codec.Keeping
import Protocyte.Codec.Reread

/-! What a parse gives is written and read again: the second message is the same as the first. -/
namespace Protocyte
open Foundation.Computation Foundation.Wire

variable {Sub : ℕ → Type} {M : MessageModel}

namespace MessageData

theorem eq_of {m m' : MessageData M Sub} (hf : ∀ i, m'.fields i = m.fields i)
    (hu : m'.unknownFields = m.unknownFields) : m' = m := by
  have hfields : m'.fields = m.fields := funext hf
  cases m
  cases m'
  cases hfields
  cases hu
  rfl

/-- No other member of the field's oneof is set. -/
def Alone (o : MessageData M Sub) (i : M.Index) : Prop :=
  ∀ j, j ≠ i → (M.kind i).oneof ≠ none → (M.kind i).oneof = (M.kind j).oneof →
    FieldState.isSet _ (o.fields j) = false

theorem Alone.setField {o : MessageData M Sub} {i : M.Index} (h : o.Alone i)
    (v : FieldState Sub (M.kind i)) {j : M.Index} (hj : j ≠ i) :
    (o.setField i v).fields j = o.fields j := by
  simp only [MessageData.setField, dif_neg hj]
  split
  · next hc => exact FieldState.cleared_of_not_isSet (h j hj hc.1 hc.2.1)
  · rfl

theorem Alone.set_set {o : MessageData M Sub} {i : M.Index} (h : o.Alone i)
    (a b : Slot Sub (M.kind i)) :
    (fieldLens i).set b ((fieldLens i).set a o) = (fieldLens i).set b o := by
  have halone : MessageData.Alone ((fieldLens i).set a o) i := by
    intro j hj hone hsame
    have hset : ((fieldLens i).set a o).fields j = o.fields j := h.setField a.value hj
    rw [hset]
    exact h j hj hone hsame
  refine eq_of (fun j => ?_) rfl
  by_cases hj : j = i
  · subst hj
    exact (setField_same _ j b.value).trans (setField_same _ j b.value).symm
  · have hleft : ((fieldLens i).set b ((fieldLens i).set a o)).fields j =
        ((fieldLens i).set a o).fields j := halone.setField b.value hj
    have hmid : ((fieldLens i).set a o).fields j = o.fields j := h.setField a.value hj
    have hright : ((fieldLens i).set b o).fields j = o.fields j := h.setField b.value hj
    rw [hleft, hmid, hright]

/-- The step of the parser. -/
abbrev step (ops : MessageOps Sub) (preserve : Bool) (tag : Tag) :
    ParseM (MessageData M Sub) Unit :=
  withField tag.fieldNumber (mergeFieldFrom ops preserve tag.fieldNumber tag.wireType)

variable {B : Bounds} {ops : MessageOps Sub} {preserve : Bool}

theorem mergeFieldFrom_number (i : M.Index) (w : WireType) :
    mergeFieldFrom ops preserve (M.number i) w = zoom (fieldLens i)
      (if (M.kind i).allows w then (M.kind i).parseCase ops preserve w (M.number i)
      else handleUnknownField preserve Slot.unknownLens w (M.number i)) := by
  unfold mergeFieldFrom
  rw [M.find_eq_some.mpr rfl]

/-- An occurrence of a field, whatever bytes its tag has. The tag pays for one that the field
counts. -/
theorem takes_occurrence {i : M.Index} {w : WireType} {ks body : List UInt8}
    (hkey : Key ks (M.number i) w.code) (hw : (M.kind i).allows w = true)
    {s : Parse (MessageData M Sub)} {Q : Slot Sub (M.kind i) → Prop}
    (h : ∀ u : Parse (Slot Sub (M.kind i)), u.obj = (fieldLens i).get s.obj →
      Takes B ((M.kind i).parseCase ops preserve w (M.number i)) u body (fun _ slot => Q slot)
        (1 + body.length)) :
    Takes B (do step ops preserve (← onReader readTag)) s (ks ++ body) fun _ o =>
      ∃ slot, Q slot ∧ o = (fieldLens i).set slot s.obj := by
  have htag : Reads readTag ks ⟨M.number i, w⟩ := Reads.tag hkey
  have hle : 1 + body.length ≤ (ks ++ body).length := by
    rw [List.length_append]
    exact Nat.add_le_add_right hkey.length_pos _
  refine Takes.reading htag fun u _ hu => Takes.withField _ (Takes.le ?_ hle)
  rw [mergeFieldFrom_number, if_pos hw]
  have hpart := h { ctx := u.ctx, obj := (fieldLens i).get u.obj, reader := u.reader }
    (by rw [hu])
  refine (Takes.zoom (fieldLens i) hpart).mono ?_
  rintro _ o ⟨slot, hslot, rfl⟩
  rw [hu]
  exact ⟨slot, hslot, rfl⟩

theorem reaches (i : M.Index) : Reaches B ops preserve (M.kind i) (M.number i) (fieldLens i)
    (step ops preserve) where
  get_set slot o := by
    have hvalue := setField_same o i slot.value
    change (⟨(o.setField i slot.value).fields i, slot.unknown⟩ : Slot Sub (M.kind i)) = slot
    rw [hvalue]
  handles {w body o Q} hw h t ht := by
    rw [← ht] at h ⊢
    exact takes_occurrence (key_canonical (M.number_pos i) (M.number_le i) w.code_lt) hw h

/-- The fields so far are those of `m`. -/
structure Filled (R : (id : ℕ) → Sub id → Sub id → Prop) (m : MessageData M Sub)
    (done : List M.Index) (o : MessageData M Sub) : Prop where
  same (i : M.Index) (h : i ∈ done) : FieldState.Same R _ (m.fields i) (o.fields i)
  rest (i : M.Index) (h : i ∉ done) : o.fields i = .default _
  unknown : o.unknownFields.val = []

variable {R : (id : ℕ) → Sub id → Sub id → Prop} {encoding : (id : ℕ) → Sub id → List UInt8}
variable {m o : MessageData M Sub} {done : List M.Index}

theorem Filled.empty : Filled R m [] (MessageData.empty : MessageData M Sub) where
  same _ h := absurd h List.not_mem_nil
  rest _ _ := rfl
  unknown := rfl

/-- Where a member of a oneof is set, none of the others is. -/
theorem Filled.alone (h : Filled R m done o) (i : M.Index)
    (hset : (M.kind i).oneof ≠ none → FieldState.isSet _ (m.fields i) = true) : o.Alone i := by
  intro j hj hone hsame
  by_cases hmem : j ∈ done
  · rw [(h.same j hmem).isSet]
    exact m.exclusive i j (Ne.symm hj) hone hsame (hset hone)
  · rw [h.rest j hmem]
    exact FieldState.isSet_default _

theorem Filled.next (h : Filled R m done o) {i : M.Index} (hi : i ∉ done) {o' : MessageData M Sub}
    (ho' : Restored R (fieldLens i) (m.fields i) o o') : Filled R m (done ++ [i]) o' := by
  obtain ⟨slot, ⟨hsame, hunknown⟩, rfl⟩ := ho'
  have hnew : ((fieldLens i).set slot o).fields i = slot.value := setField_same o i slot.value
  have hother (j : M.Index) (hj : j ≠ i) : ((fieldLens i).set slot o).fields j = o.fields j := by
    by_cases hset : (M.kind i).oneof ≠ none ∧ FieldState.isSet _ slot.value = true
    · refine (h.alone i fun _ => ?_).setField slot.value hj
      rw [← hsame.isSet]
      exact hset.2
    · change (o.setField i slot.value).fields j = _
      simp only [MessageData.setField, dif_neg hj]
      exact if_neg fun hc => hset ⟨hc.1, hc.2.2⟩
  refine ⟨fun j hj => ?_, fun j hj => ?_, ?_⟩
  · by_cases hji : j = i
    · subst hji
      rw [hnew]
      exact hsame
    · have hmem : j ∈ done := by simpa [hji] using hj
      rw [hother j hji]
      exact h.same j hmem
  · have hji : j ≠ i := fun heq => hj (by rw [heq]; simp)
    rw [hother j hji]
    exact h.rest j fun hmem => hj (List.mem_append_left _ hmem)
  · change slot.unknown.val = []
    rw [hunknown]
    exact h.unknown

/-- The records of the fields, in the order they are written, fill a new message. -/
theorem handles_fields (hv : ∀ i, FieldState.Rereads B ops R encoding _ (m.fields i))
    (hfits : ∀ i, FieldState.Fits B _ (m.fields i))
    (hlen : ∀ t ∈ m.trees encoding, t.encode.length ≤ usizeMax) (rest done : List M.Index)
    (hsorted : done ++ rest = M.sorted) {o : MessageData M Sub} (h : Filled R m done o) :
    Handles B (step ops preserve) (Filled R m M.sorted)
      ((rest.flatMap fun i => FieldState.trees encoding (M.number i) _ (m.fields i)).map
        Tree.encode) o := by
  induction rest generalizing done o with
  | nil =>
    rw [List.append_nil] at hsorted
    rw [← hsorted]
    exact h
  | cons i rest ih =>
    have hnodup := M.nodup_sorted
    rw [← hsorted] at hnodup
    have hi : i ∉ done := fun hmem =>
      (List.nodup_append.mp hnodup).2.2 i hmem i List.mem_cons_self rfl
    have hmem : i ∈ M.sorted := by rw [← hsorted]; simp
    rw [List.flatMap_cons, List.map_append]
    have hawaits : Awaits B ops preserve (M.kind i) (M.number i) (fieldLens i)
        (step ops preserve) o := by
      refine ⟨reaches i, ⟨M.number_pos i, M.number_le i⟩, h.rest i hi, fun _ => ?_⟩
      change o.unknownFields.val.length ≤ _
      rw [h.unknown]
      exact Nat.zero_le _
    refine Handles.append (Handles.mono (FieldState.handles hawaits
      (fun hset a b => (h.alone i hset).set_set a b) (hv i) (hfits i) fun t ht => hlen t ?_)
        fun o' ho' => ?_)
    · exact List.mem_flatMap.mpr ⟨i, hmem, ht⟩
    · exact ih (done ++ [i]) (by rw [List.append_assoc]; exact hsorted) (h.next hi ho')

/-- The fields stay, and the storage gains these bytes. -/
def Stores (o : MessageData M Sub) (bs : List UInt8) (o' : MessageData M Sub) : Prop :=
  (∀ i, o'.fields i = o.fields i) ∧ o'.unknownFields.val = o.unknownFields.val ++ bs

private theorem stores_set {o : MessageData M Sub} {i : M.Index} {slot : Slot Sub (M.kind i)}
    {bs : List UInt8} (hvalue : slot.value = o.fields i)
    (hunknown : slot.unknown.val = o.unknownFields.val ++ bs) :
    o.Stores bs ((fieldLens i).set slot o) := by
  refine ⟨fun j => ?_, hunknown⟩
  have hfields : ((fieldLens i).set slot o).fields = (o.setField i slot.value).fields := rfl
  rw [hfields, hvalue, setField_self]

private theorem handles_stray {r : Tree} (h : M.Stray Sub r) {o : MessageData M Sub}
    (hroom : B.Stores (o.unknownFields.val.length + r.encode.length)) :
    Handles B (step ops true) (o.Stores r.encode) [r.encode] o := by
  cases h with
  | diverted i h =>
    obtain ⟨w, hw, hr, htakes⟩ := h.takes (B := B) ⟨M.number_pos i, M.number_le i⟩ ops
    rw [hr]
    refine ((reaches i).handles (Q := ((fieldLens i).get o).Stores r) hw fun u hu => ?_).mono ?_
    · rw [← hu]
      refine htakes u ?_
      rw [hu]
      exact hroom
    · rintro o' ⟨slot, ⟨hvalue, hunknown⟩, rfl⟩
      rw [← hr]
      exact stores_set hvalue hunknown
  | refused w hw hn hb h =>
    intro t ht
    have hkey := key_canonical hn.1 hn.2 w.code_lt
    have htag : Reads readTag (key r.number w.code) ⟨r.number, w⟩ := Reads.tag hkey
    rw [← hw] at hb
    have hencode : r.encode = key r.number w.code ++ r.body := by rw [hw]; rfl
    have hle : r.body.length ≤ (key r.number w.code ++ r.body).length := by
      rw [List.length_append]
      exact Nat.le_add_left _ _
    have hread (u : Parse ByteVec) (hu : u.obj = storageLens.get o.unknownFields) :=
      (Takes.readUnknownField (B := B) (s := u) hn.2 hb (by rw [hu]; exact hroom)).le hle
    rw [hencode]
    refine Takes.reading htag fun u _ hu => Takes.withField _ ?_
    rw [← ht, ← hu]
    have hobj : u.obj = o := hu.trans ht
    cases hfind : M.find r.number with
    | none =>
      have hmerge : mergeFieldFrom (M := M) ops true r.number w =
          handleUnknownField true unknownLens w r.number := by
        unfold mergeFieldFrom
        rw [hfind]
      rw [hmerge]
      refine (Takes.zoom (unknownLens.comp storageLens) (hread _ (by rw [hobj]; rfl))).mono ?_
      rintro _ o' ⟨storage, hstorage, rfl⟩
      rw [← hencode]
      exact ⟨fun _ => rfl, hstorage⟩
    | some i =>
      have hi := M.find_eq_some.mp hfind
      have hmerge : mergeFieldFrom (M := M) ops true r.number w = zoom (fieldLens i)
          (handleUnknownField true Slot.unknownLens w r.number) := by
        have hrefused : ¬(M.kind i).allows w = true := by
          rw [h i hi]
          exact Bool.false_ne_true
        rw [← hi, mergeFieldFrom_number, if_neg hrefused]
      rw [hmerge]
      refine (Takes.zoom (fieldLens i) (Takes.zoom (Slot.unknownLens.comp storageLens)
        (hread _ (by rw [hobj]; rfl)))).mono ?_
      rintro _ o' ⟨slot, ⟨storage, hstorage, rfl⟩, rfl⟩
      rw [← hencode]
      exact stores_set rfl hstorage

/-- Records that no field takes are stored in their order. -/
theorem handles_strays (ts : List Tree) (hts : ∀ t ∈ ts, M.Stray Sub t) {o : MessageData M Sub}
    (hroom : B.Stores (o.unknownFields.val.length + (encodeAll ts).length)) :
    Handles B (step ops true) (o.Stores (encodeAll ts)) (ts.map Tree.encode) o := by
  induction ts generalizing o with
  | nil => exact ⟨fun _ => rfl, by rw [encodeAll_nil, List.append_nil]⟩
  | cons t ts ih =>
    rw [encodeAll_cons, List.length_append, ← Nat.add_assoc] at hroom
    refine Handles.cons ((handles_stray (hts t List.mem_cons_self)
      (hroom.mono (Nat.le_add_right _ _))).mono ?_)
    intro o' ⟨hfields, hunknown⟩
    rw [← List.length_append, ← hunknown] at hroom
    refine (ih (fun u hu => hts u (List.mem_cons_of_mem t hu)) hroom).mono ?_
    intro o'' ⟨hfields', hunknown'⟩
    refine ⟨fun i => (hfields' i).trans (hfields i), ?_⟩
    rw [hunknown', hunknown, encodeAll_cons, List.append_assoc]

end MessageData

theorem FieldState.All.and {P Q : (kind : ValueKind) → kind.Carrier Sub → Prop} {kind : FieldKind}
    {v : FieldState Sub kind} (hp : FieldState.All P kind v) (hq : FieldState.All Q kind v) :
    FieldState.All (fun k w => P k w ∧ Q k w) kind v := by
  cases kind with
  | implicit kind hd =>
    cases kind with
    | value kind => exact ⟨hp, hq⟩
    | byteArray max fixed => trivial
  | explicit kind required oneof =>
    cases kind with
    | value kind => exact fun w hw => ⟨hp w hw, hq w hw⟩
    | byteArray max fixed => trivial
  | «repeated» kind packed storage => exact fun w hw => ⟨hp w hw, hq w hw⟩
  | map key value maxBuckets =>
    exact fun e he => ⟨⟨(hp e he).1, (hq e he).1⟩, (hp e he).2, (hq e he).2⟩

section
variable {encoding : (id : ℕ) → Sub id → List UInt8}

/-- The nested messages of a record are not longer than the record. -/
private theorem valueTree_nested_le {n N : ℕ} {kind : ValueKind} {v : kind.Carrier Sub}
    (h : (valueTree encoding n kind v).encode.length ≤ N) :
    kind.Nested (fun id w => (encoding id w).length ≤ N) v := by
  cases kind with
  | scalar t | string | bytes => trivial
  | message id boxed => exact bytes_payload_le h

theorem FieldState.nested_le {n N : ℕ} {kind : FieldKind} {v : FieldState Sub kind}
    (h : ∀ t ∈ FieldState.trees encoding n kind v, t.encode.length ≤ N) :
    FieldState.All (fun k w => k.Nested (fun id u => (encoding id u).length ≤ N) w) kind v := by
  cases kind with
  | implicit kind hd =>
    cases kind with
    | value kind => exact implicit_nested (.value kind) hd v
    | byteArray max fixed => trivial
  | explicit kind required oneof =>
    cases kind with
    | byteArray max fixed => trivial
    | value kind =>
      rintro w rfl
      exact valueTree_nested_le (n := n) (h _ List.mem_cons_self)
  | «repeated» kind packed storage =>
    intro w hw
    cases kind with
    | scalar t => trivial
    | string | bytes | message id boxed =>
      exact valueTree_nested_le (n := n) (h _ (List.mem_map_of_mem hw))
  | map key value maxBuckets =>
    intro e he
    have hentry := bytes_payload_le (h _ (List.mem_map_of_mem he))
    have hmember {t : Tree} (ht : t ∈ [valueTree encoding 1 key.value e.1,
        valueTree encoding 2 value e.2]) : t.encode.length ≤ N :=
      Nat.le_trans (length_encode_le ht) hentry
    exact ⟨valueTree_nested_le (n := 1) (hmember (by simp)),
      valueTree_nested_le (n := 2) (hmember (by simp))⟩

end

theorem flatten_map_encode (ts : List Tree) : (ts.map Tree.encode).flatten = encodeAll ts := by
  induction ts with
  | nil => exact encodeAll_nil.symm
  | cons t ts ih =>
    rw [List.map_cons, List.flatten_cons, ih, encodeAll_cons]

theorem encode_ne_nil (t : Tree) : t.encode ≠ [] := fun h =>
  Foundation.Base128.encode_ne_nil _ (List.append_eq_nil_iff.mp h).1

section
variable {R : (id : ℕ) → Sub id → Sub id → Prop} {encoding : (id : ℕ) → Sub id → List UInt8}
variable {B : Bounds} {ops : MessageOps Sub} {preserve : Bool}

/-- What the values of a field must be, from what a valid message with kept storages is. -/
theorem FieldState.rereads {nested : (id : ℕ) → Sub id → Except Error Unit} {kind : FieldKind}
    {v : FieldState Sub kind} {n N : ℕ} {K : (id : ℕ) → Sub id → Prop} (hN : N ≤ usizeMax)
    (hrereads : ∀ id w, nested id w = .ok () → (encoding id w).length ≤ N → K id w →
      ops.Rereads B R encoding id w)
    (hclosed : FieldState.All (fun k w => k.validateClosedEnum n w = .ok ()) kind v)
    (hstring : FieldState.All (fun k w => k.validateString n w = .ok ()) kind v)
    (hnested : FieldState.NestedValid nested kind v)
    (hlen : ∀ t ∈ FieldState.trees encoding n kind v, t.encode.length ≤ N)
    (hkept : FieldState.Nests (fun _ => K) kind v) : FieldState.Rereads B ops R encoding kind v := by
  have hall := ((hclosed.and hstring).and (hnested.and (FieldState.nested_le hlen))).and hkept
  refine FieldState.All.mono ?_ kind v hall
  rintro k w ⟨⟨⟨hc, hs⟩, hn, hl⟩, hk⟩
  cases k with
  | scalar t =>
    rw [ValueKind.Rereads, ← Bool.not_eq_true]
    intro hinvalid
    change (if t.closedInvalid w = true then _ else _) = _ at hc
    rw [if_pos hinvalid] at hc
    cases hc
  | string =>
    change validateUtf8 w.val = true
    by_contra hinvalid
    change (if validateUtf8 w.val = true then _ else _) = _ at hs
    rw [if_neg hinvalid] at hs
    cases hs
  | bytes => trivial
  | message id boxed => exact ⟨Nat.le_trans hl hN, hrereads id w hn hl hk⟩

/-- The records of a message, handled on a new one. -/
theorem MessageData.handles_message {m : MessageData M Sub}
    (hv : ∀ i, FieldState.Rereads B ops R encoding _ (m.fields i))
    (hfits : ∀ i, FieldState.Fits B _ (m.fields i))
    (hlen : ∀ t ∈ m.trees encoding, t.encode.length ≤ usizeMax)
    (hstored : M.Storable Sub preserve m.unknownFields.val)
    (hroom : B.Stores m.unknownFields.val.length) :
    ∃ records : List Tree, (∀ o : MessageData M Sub, o = .empty →
      Handles B (step ops preserve) (fun o => m.Same R o) (records.map Tree.encode) o) ∧
      encodeAll records = encodeAll (m.trees encoding) ++ m.unknownFields.val := by
  obtain ⟨ts, hts, hstray, hdropped⟩ := hstored
  refine ⟨m.trees encoding ++ ts, ?_, by rw [encodeAll_append, hts]⟩
  rintro o rfl
  rw [List.map_append]
  refine Handles.append ((handles_fields hv hfits hlen M.sorted [] rfl .empty).mono fun o ho => ?_)
  have hsame (o' : MessageData M Sub) (h : o.Stores (encodeAll ts) o') : m.Same R o' := by
    refine ⟨fun i => ?_, ?_⟩
    · rw [h.1 i]
      exact ho.same i (M.mem_sorted i)
    · rw [h.2, ho.unknown, hts, List.nil_append]
  cases preserve with
  | true =>
    refine (handles_strays ts hstray ?_).mono hsame
    rw [ho.unknown, List.length_nil, Nat.zero_add, ← hts]
    exact hroom
  | false =>
    rw [hdropped rfl] at hsame ⊢
    exact hsame o ⟨fun _ => rfl, by rw [encodeAll_nil, List.append_nil]⟩

end

theorem length_le_encodeAll (ts : List Tree) : ts.length ≤ (encodeAll ts).length := by
  induction ts with
  | nil => exact Nat.zero_le _
  | cons t ts ih =>
    have hpos := List.length_pos_iff.mpr (encode_ne_nil t)
    rw [encodeAll_cons, List.length_append, List.length_cons]
    omega

/-- The buckets of a map may be those for so many entries. -/
def FieldKind.Fits (n : ℕ) : FieldKind → Prop
  | .map _ _ maxBuckets => HashMap.Fits maxBuckets.val n
  | .implicit .. | .explicit .. | .repeated .. => True

/-- Every map may hold so many entries. -/
def Schema.Fits (S : Schema) (n : ℕ) : Prop := ∀ id i, ((S id).kind i).Fits n

theorem FieldState.fits {B : Bounds} {e : (id : ℕ) → Sub id → List UInt8} {f n : ℕ}
    {kind : FieldKind} {v : FieldState Sub kind} (h : B.room → kind.Fits n)
    (hle : (FieldState.trees e f kind v).length ≤ n) : FieldState.Fits B kind v := by
  cases kind with
  | implicit kind hd | explicit kind required oneof | «repeated» kind packed storage => trivial
  | map key value maxBuckets =>
    have hlength : (FieldState.trees e f (.map key value maxBuckets) v).length =
      v.val.entries.length := List.length_map _
    rw [hlength] at hle
    exact fun hroom => HashMap.Fits.mono (h hroom) hle

namespace Message

variable (S : Schema) (preserve : Bool)

/-- A new message that parses the encoding of a valid message becomes the same message. -/
theorem rereads {B : Bounds} {levels id n : ℕ} {m : Message S levels id} (hn : n ≤ usizeMax)
    (hroom : B.room → n ≤ B.limits.maxUnknownFieldBytes ∧ S.Fits n)
    (hvalid : validate S levels id m = .ok ()) (hlen : (encoding S levels id m).length ≤ n)
    (hstorable : Storable S preserve levels id m) :
    (ops S preserve levels).Rereads B (Same S levels) (encoding S levels) id m := by
  induction levels generalizing id with
  | zero => exact m.elim
  | succ levels ih =>
    obtain ⟨_, hclosed, _, hstring, hnested⟩ := MessageData.validate_eq_ok.mp hvalid
    have hencoding : encoding S (levels + 1) id m =
      encodeAll (MessageData.trees (encoding S levels) m) ++ m.unknownFields.val := rfl
    have hsum := hlen
    rw [hencoding, List.length_append] at hsum
    have htrees (t : Tree) (ht : t ∈ MessageData.trees (encoding S levels) m) :
        t.encode.length ≤ n := by
      have hle := length_encode_le ht
      omega
    have hv (i : (S id).Index) : FieldState.Rereads B (ops S preserve levels) (Same S levels)
        (encoding S levels) _ (m.fields i) :=
      FieldState.rereads hn (fun id w hw hl hk => ih hw hl hk) (hclosed i) (hstring i) (hnested i)
        (fun t ht => htrees t (List.mem_flatMap.mpr ⟨i, (S id).mem_sorted i, ht⟩))
        (hstorable.nested i)
    have hfits (i : (S id).Index) : FieldState.Fits B _ (m.fields i) := by
      refine FieldState.fits (e := encoding S levels) (f := (S id).number i)
        (fun h => (hroom h).2 id i) ?_
      have hmem : FieldState.trees (encoding S levels) ((S id).number i) _ (m.fields i) ∈
          (S id).sorted.map fun i => FieldState.trees (encoding S levels) ((S id).number i) _
            (m.fields i) := List.mem_map_of_mem ((S id).mem_sorted i)
      have hle := (List.sublist_flatten_of_mem hmem).length_le
      rw [← List.flatMap_def] at hle
      have hcount := length_le_encodeAll (MessageData.trees (encoding S levels) m)
      exact Nat.le_trans (Nat.le_trans hle hcount) (by omega)
    have hstored : B.Stores m.unknownFields.val.length := fun h =>
      Nat.le_trans (Nat.le_trans (Nat.le_add_left _ _) hsum) (hroom h).1
    obtain ⟨records, hrecords, hbytes⟩ := MessageData.handles_message hv hfits
      (fun t ht => Nat.le_trans (htrees t ht) hn) hstorable.stored hstored
    refine ⟨.empty, rfl, fun t ht hrest hsteady => ?_⟩
    rw [hencoding, ← hbytes] at hrest ⊢
    rw [← flatten_map_encode] at hrest
    have htakes := (hrecords t.obj ht).forEachField ?_ hrest hsteady
    · rw [hrest, flatten_map_encode] at htakes
      exact htakes
    · intro bs hbs
      obtain ⟨r, _, rfl⟩ := List.mem_map.mp hbs
      exact encode_ne_nil r

/-- A success is valid, and its storages hold records that no field takes. -/
theorem parse_storable {levels id : ℕ} {input : List UInt8} {ctx ctx' : Context}
    {m : Message S levels id} (h : parse S preserve levels id input ctx = .ok m ctx') :
    validate S levels id m = .ok () ∧ Storable S preserve levels id m := by
  have hfresh (fresh : Message S levels id) (hcreate : create S levels id = .ok fresh) :=
    (ops_keeps S preserve levels).create id fresh hcreate
  have hmerge (s t : Parse (Message S levels id)) (hs : Storable S preserve levels id s.obj)
      (hst : mergeFrom S preserve levels id s = .ok () t) :
      validate S levels id t.obj = .ok () ∧ Storable S preserve levels id t.obj := by
    have hx : Gives (mergeFrom S preserve levels id) s fun _ u =>
        validate S levels id u.obj = .ok () ∧ Storable S preserve levels id u.obj := by
      refine .bind (Q := fun _ u => Storable S preserve levels id u.obj) ?_ fun _ u hu => ?_
      · refine (Gives.through (.bind ((ops_keeps S preserve levels).merge id _ hs)
          fun _ u hu => .checkReader fun _ => hu)).mono ?_
        rintro _ _ ⟨u, hu, rfl⟩
        exact hu
      · exact .get_bind (.ofExcept fun _ hv => ⟨hv, hu⟩)
    exact hx () t hst
  unfold parse at h
  split at h
  · cases h
  next output houtput =>
  split at h
  · next t ht =>
    cases h
    unfold parseInto at ht
    rw [houtput] at ht
    dsimp only at ht
    split at ht
    · next u hu =>
      cases ht
      exact hmerge _ _ (hfresh output houtput) hu
    · cases ht
  · cases h

end Message

theorem through_exits {O α : Type} {wrap : Reader → Reader} {x : ParseM O α} {s : Parse O}
    {Q : α → O → Prop} {P : Error → Prop} (hx : Exits (x { s with reader := wrap s.reader })
      (fun a t => Q a t.obj) (fun e _ => P e)) :
    Exits (through wrap x s) (fun a t => Q a t.obj) (fun e _ => P e) := by
  unfold through
  split
  · next h =>
    have ho := hx.ok h
    exact ho
  · next h =>
    have he := hx.error h
    exact he

/-- Where everything was read, no byte is past the limit. -/
theorem Reader.Moved.limitReached {r r' : Reader} {a b c d e k : ℕ}
    (h : Reader.Moved (parseBudget r a b c d e) r' k) (hk : k = r.rest.length) (hr : r.Steady) :
    r'.limitReached = false := by
  have hsame (r : Reader) : r.uncounted.limitReached = r.limitReached := by
    cases r with
    | parseBudget inner remaining maxRep maxMap rep map =>
      change (remaining == 0 && !inner.uncounted.eof) = (remaining == 0 && !inner.eof)
      rw [eof_uncounted]
    | slice r | limited inner remaining | ref inner | staged r inner => rfl
  have hend : (r.uncounted.advance k).eof = true := by
    have hle : k ≤ r.uncounted.rest.length := by rw [rest_uncounted, hk]
    rw [(((steady_uncounted r).mpr hr).advance hle).eof_iff, rest_advance, rest_uncounted, hk,
      List.drop_length]
  rw [← hsame, h.uncounted]
  change (a - k == 0 && !(r.uncounted.advance k).eof) = false
  rw [hend, Bool.not_true, Bool.and_false]

namespace Message

variable (S : Schema) (preserve : Bool)

/-- What the parse of any `n` bytes may need. -/
structure Affords (ctx : Context) (n : ℕ) : Prop where
  grants : ctx.AlwaysGrants
  message_le : n ≤ ctx.limits.maxMessageBytes
  string_le : n ≤ ctx.limits.maxStringBytes
  unknown_le : n ≤ ctx.limits.maxUnknownFieldBytes
  elements_le : n ≤ ctx.limits.maxRepeatedElements
  entries_le : n ≤ ctx.limits.maxMapEntries
  fits : S.Fits n

/-- The encoding of such a message parses into the same message, unless it nests too deep, or the
context does not afford it. -/
theorem parse_encoding {levels id n : ℕ} {m : Message S levels id}
    (hvalid : validate S levels id m = .ok ()) (hstorable : Storable S preserve levels id m)
    (hlen : (encoding S levels id m).length = n) (hn : n ≤ usizeMax) (ctx : Context)
    (hlimit : n ≤ ctx.limits.maxTotalBytes) :
    Exits (parse S preserve levels id (encoding S levels id m) ctx)
      (fun m' _ => Same S levels id m m')
      (fun e _ => e.code = .recursionLimit ∨ e.IsLimit ∧ ¬Affords S ctx n) := by
  let B : Bounds :=
    { limits := ctx.limits
      room := n ≤ ctx.limits.maxUnknownFieldBytes ∧ S.Fits n }
  obtain ⟨fresh, hcreate, hreads⟩ := rereads S preserve (B := B) hn (fun h => h) hvalid
    (Nat.le_of_eq hlen) hstorable
  have hcreate : create S levels id = .ok fresh := hcreate
  have hmerge (s : Parse (Message S levels id)) (hobj : s.obj = fresh) (hctx : s.ctx = ctx)
      (hrest : s.reader.rest = encoding S levels id m) (hsteady : s.reader.Steady) :
      Exits (mergeFrom S preserve levels id s) (fun _ t => Same S levels id m t.obj)
        (fun e _ => e.code = .recursionLimit ∨ e.IsLimit ∧ ¬Affords S ctx n) := by
    have hbudget : s.reader.rest.take s.ctx.limits.maxTotalBytes = encoding S levels id m := by
      rw [hrest, hctx, List.take_of_length_le (by omega)]
    have hafforded (h : Affords S ctx n) : B.Suffice n (budgeted s).ctx (budgeted s).reader := by
      have hle : (budgeted s).reader.rest.length ≤ n := by
        rw [← hlen, ← hbudget]
        exact Nat.le_refl _
      refine ⟨⟨h.unknown_le, h.fits⟩, congrArg Context.limits hctx, ?_,
        Nat.le_trans hle h.message_le, Nat.le_trans hle h.string_le, ?_⟩
      · change s.ctx.AlwaysGrants
        rw [hctx]
        exact h.grants
      · intro budget
        cases budget with
        | repeatedElements =>
          change 0 + n ≤ s.ctx.limits.maxRepeatedElements
          rw [hctx, Nat.zero_add]
          exact h.elements_le
        | mapEntries =>
          change 0 + n ≤ s.ctx.limits.maxMapEntries
          rw [hctx, Nat.zero_add]
          exact h.entries_le
    refine Exits.bind (Q := fun _ t => Same S levels id m t.obj) ?_ fun _ t ht => ?_
    · refine through_exits (Q := fun _ o => Same S levels id m o)
        (P := fun e => e.code = .recursionLimit ∨ e.IsLimit ∧ ¬Affords S ctx n) ?_
      have htakes := hreads (budgeted s) hobj hbudget hsteady
      rw [hlen] at htakes
      refine Exits.bind ((htakes ⟨[], by rw [List.append_nil]; exact hbudget.symm⟩).mono
        (fun _ _ h => h) ?_) ?_
      · rintro e _ (he | ⟨he, hn⟩)
        · exact .inl he
        · exact .inr ⟨he, fun h => hn (hafforded h)⟩
      intro _ t ⟨⟨hmoved, _⟩, hsame⟩
      have hlimitReached : t.reader.limitReached = false := by
        refine hmoved.limitReached ?_ hsteady
        rw [hrest]
      unfold checkReader
      dsimp only
      rw [hlimitReached]
      exact hsame
    · rw [bind_of_ok (get_apply t), ht.validate hvalid]
      exact ht
  unfold parse parseInto
  rw [hcreate]
  dsimp only
  let input : SliceReader :=
    { data := encoding S levels id m
      pos_le := start_le _ }
  have hs := hmerge { ctx, obj := fresh, reader := .slice input } rfl rfl rfl trivial
  split
  · next t ht =>
    split at ht
    · next u hu =>
      cases ht
      exact hs.ok hu
    · cases ht
  · next e t ht =>
    split at ht
    · cases ht
    · next u hu =>
      cases ht
      exact hs.error hu

variable {S preserve}

/-- What a parse gives can be written wherever there is room, and what is written parses into the
same message, unless it nests deeper than the levels left, or memory or a limit runs out and the
context does not afford so many bytes. -/
theorem parse_serialize_parse {levels id n : ℕ} {input : List UInt8} {ctx ctx' : Context}
    {m : Message S levels id} (h : parse S preserve levels id input ctx = .ok m ctx')
    (hsize : encodedSize S levels id m = .ok n) :
    ∃ bytes : List UInt8, bytes.length = n ∧
      (∀ (σ : Type) [Writer σ] [LawfulWriter σ] (s : σ), Room s n →
        ∃ s', serialize S levels id m s = .ok () s' ∧ output s' = output s ++ bytes) ∧
      ∀ ctx : Context, n ≤ ctx.limits.maxTotalBytes →
        Exits (parse S preserve levels id bytes ctx) (fun m' _ => Same S levels id m m')
          (fun e _ => e.code = .recursionLimit ∧ S.Nests (ctx.levels + 1) (.message id) bytes ∨
            e.IsLimit ∧ ¬Affords S ctx n) := by
  obtain ⟨hvalid, hstorable⟩ := parse_storable S preserve h
  obtain ⟨hlen, _, _, hserializes, _⟩ := encodedSize_serialize m n hvalid hsize
  obtain ⟨_, hle, _⟩ := (measures S levels id m n).mp hsize
  refine ⟨encoding S levels id m, hlen, hserializes, fun ctx hlimit => ?_⟩
  rw [hlen] at hle
  refine ((parse_encoding S preserve hvalid hstorable hlen hle ctx hlimit).and
    (parse_nests S preserve levels id _ ctx)).mono (fun _ _ h => h.1) ?_
  rintro e _ ⟨he | he, hnests⟩
  · exact .inl ⟨he, hnests he⟩
  · exact .inr he

/-- A list of two elements with an unknown field. -/
private theorem parse_list : Exits (parse listSchema true 2 0 [8, 172, 2, 18, 2, 8, 7, 24, 5]
    { limits := {}, grants := fun _ => true })
    (fun m _ => encodedSize listSchema 2 0 m = .ok 9) (fun _ _ => False) := by
  decide +kernel

theorem listSchema_fits (n : ℕ) : listSchema.Fits n := fun _ i =>
  match i with
  | ⟨0, _⟩ | ⟨1, _⟩ => trivial

/-- What was written parses again, since its bytes are fewer than the levels. -/
theorem parse_serialize_parse_list : ∃ (m : Message listSchema 2 0) (bytes : List UInt8),
    bytes.length = 9 ∧ Exits
      (parse listSchema true 2 0 bytes { limits := {}, grants := fun _ => true })
      (fun m' _ => Same listSchema 2 0 m m') (fun _ _ => False) := by
  cases h : parse listSchema true 2 0 [8, 172, 2, 18, 2, 8, 7, 24, 5]
      { limits := {}, grants := fun _ => true } with
  | error e ctx => exact (parse_list.error h).elim
  | ok m ctx =>
    obtain ⟨bytes, hlen, _, hagain⟩ := parse_serialize_parse h (parse_list.ok h)
    refine ⟨m, bytes, hlen, (hagain _ (by decide)).mono (fun _ _ h => h) ?_⟩
    rintro e _ (⟨_, hnests⟩ | ⟨_, hn⟩)
    · have hle := hnests.le_length
      rw [hlen] at hle
      exact absurd hle (by decide)
    · refine hn ⟨fun _ => rfl, by decide, by decide, by decide, by decide, by decide,
        listSchema_fits 9⟩

end Message

end Protocyte
