import Protocyte.Codec.RoundTrip

/-! Many occurrences of one field, as any well-formed input may have them: repeated scalars, packed
and unpacked in any mixture, and the entries of a map. -/
namespace Protocyte
open Foundation.Computation Foundation.Wire

variable {Sub : ℕ → Type} {M : MessageModel} {B : Bounds} {ops : MessageOps Sub} {preserve : Bool}

namespace MessageData

/-- The member of a field whose kind is known. -/
def fieldAt {i : M.Index} {kind : FieldKind} (h : M.kind i = kind) (m : MessageData M Sub) :
    FieldState Sub kind := h ▸ m.fields i

/-- The member and the storage of the unknown fields. -/
def slotAt {i : M.Index} {kind : FieldKind} (h : M.kind i = kind) (m : MessageData M Sub) :
    Slot Sub kind where
  value := m.fieldAt h
  unknown := m.unknownFields

/-- Occurrences of a field that is no member of a oneof, one after the other. -/
theorem takes_occurrences {i : M.Index} {kind : FieldKind} (hkind : M.kind i = kind)
    (hone : kind.oneof = none) {A : Type} {items : List A} {wire : A → WireType}
    {ks body : A → List UInt8} (hkey : ∀ a ∈ items, Key (ks a) (M.number i) (wire a).code)
    (hwire : ∀ a ∈ items, kind.allows (wire a) = true) {P : List A → Slot Sub kind → Prop}
    (hstep : ∀ pre a (u : Parse (Slot Sub kind)), pre ++ [a] <+: items → P pre u.obj →
      Takes B (kind.parseCase ops preserve (wire a) (M.number i)) u (body a)
        (fun _ slot => P (pre ++ [a]) slot) (1 + (body a).length))
    {s : Parse (MessageData M Sub)}
    (hrest : s.reader.rest = items.flatMap fun a => ks a ++ body a) (hsteady : s.reader.Steady)
    (hP : P [] (s.obj.slotAt hkind)) :
    Takes B (mergeFieldsFrom ops preserve) s s.reader.rest fun _ o =>
      P items (o.slotAt hkind) ∧ ∀ j, j ≠ i → o.fields j = s.obj.fields j := by
  subst hkind
  refine Takes.forEachField (J := fun pre o => P pre (o.slotAt rfl) ∧
    ∀ j, j ≠ i → o.fields j = s.obj.fields j) ?_ ?_ hrest hsteady ⟨hP, fun _ _ => rfl⟩
  · intro pre a t hpre ⟨ht, hothers⟩
    have ha : a ∈ items := hpre.subset (by simp)
    refine (takes_occurrence (hkey a ha) (hwire a ha) (Q := P (pre ++ [a])) fun u hu => ?_).mono ?_
    · refine hstep pre a u hpre ?_
      rw [hu]
      exact ht
    · rintro _ o ⟨slot, hslot, rfl⟩
      have hvalue : ((fieldLens i).set slot t.obj).fields i = slot.value := setField_same _ i _
      refine ⟨?_, fun j hj => ?_⟩
      · have hsame : slotAt rfl ((fieldLens i).set slot t.obj) = slot := by
          change (⟨((fieldLens i).set slot t.obj).fields i, slot.unknown⟩ : Slot Sub _) = slot
          rw [hvalue]
        rw [hsame]
        exact hslot
      · rw [← hothers j hj]
        change (t.obj.setField i slot.value).fields j = _
        simp only [MessageData.setField, dif_neg hj]
        exact if_neg fun hc => hc.1 hone
  · intro a ha hnil
    have hpos := (hkey a ha).length_pos
    rw [(List.append_eq_nil_iff.mp hnil).1] at hpos
    exact absurd hpos (Nat.lt_irrefl 0)

end MessageData

/-- What an occurrence of a repeated scalar field has after its tag: a value, or a packed run. -/
inductive Chunk (t : ScalarType)
  | single (v : SpelledScalar t)
  | packed (run : List (SpelledScalar t)) (bytes : List UInt8) (h : Delimited bytes (runBytes run))

namespace Chunk

variable {t : ScalarType}

def wire : Chunk t → WireType
  | single _ => t.wireType
  | packed .. => .len

def body : Chunk t → List UInt8
  | single v => v.bytes
  | packed _ bytes _ => bytes

def values : Chunk t → List (SpelledScalar t)
  | single v => [v]
  | packed run .. => run

theorem whole (chunk : Chunk t) (f : ℕ) : (Tag.mk f chunk.wire).Whole chunk.body := by
  cases chunk with
  | packed run bytes h =>
    obtain ⟨ls, hls, rfl⟩ := h
    exact ⟨0, _, Leaf.bytes hls⟩
  | single v =>
    have hencodes := v.encodes
    cases t with
    | double | fixed64 | sfixed64 => exact ⟨0, _, Leaf.fixed64 hencodes.1⟩
    | float | fixed32 | sfixed32 => exact ⟨0, _, Leaf.fixed32 hencodes.1⟩
    | int32 | int64 | uint32 | uint64 | openEnum | closedEnum values | sint32 | sint64 | bool =>
      obtain ⟨n, hn, _⟩ := hencodes
      exact ⟨0, _, Leaf.varint hn⟩

end Chunk

section
variable {t : ScalarType} {packed : Bool} {storage : Storage} {f : ℕ}

/-- The values are appended, and those that are none of their enumeration stored. -/
private theorem readUnpacked_takes (hf : 0 < f ∧ f ≤ maxNumber) (v : SpelledScalar t)
    {u : Parse (PackedSlot Sub t packed storage)} (hroom : Slot.Admits B preserve f [v] u.obj) :
    Takes B (readRepeatedField ops preserve t.wireType f) u v.bytes
      (fun _ slot => Slot.After preserve f [v] u.obj slot) (1 + v.bytes.length) := by
  have hdiverted : [v].flatMap (SpelledScalar.diverted preserve f) = v.diverted preserve f := by
    simp
  refine (Takes.consume _ _ (Nat.le_refl 1)).charge (Nat.le_refl _) fun _ x _ hx => ?_
  rw [← hx] at hroom ⊢
  have hstored := hroom.unknown
  rw [hdiverted] at hstored
  have hread : Takes B (readRepeatedValue ops preserve Slot.unknownLens t.wireType f (.scalar t)) x
      v.bytes fun a o => a = v.accepted ∧ ∃ storage : Bytes, storage.val =
        x.obj.unknown.val ++ v.diverted preserve f ∧ o = Slot.unknownLens.set storage x.obj :=
    Takes.readAcceptedScalar preserve _ hf v (fun _ => Reads.readScalarField t f v.encodes) hstored
  refine hread.andThen fun a y _ ⟨ha, unknown, hunknown, hy⟩ => ?_
  rw [ha]
  cases haccepted : v.accepted with
  | none =>
    refine .pure ⟨?_, ?_⟩
    · rw [hy, List.filterMap_cons_none haccepted, List.filterMap_nil, List.append_nil]
      rfl
    · rw [hy, hdiverted]
      exact hunknown
  | some value =>
    have hfree := hroom.values
    rw [List.filterMap_cons_some haccepted] at hfree
    have hsame : y.obj.value = x.obj.value := by rw [hy]; rfl
    rw [← hsame] at hfree
    refine (Takes.zoom Slot.valueLens (Takes.onBound
      (Q := fun _ items => items.val = y.obj.value.val ++ [value])
      (Items.pushBack_exits false value _) fun hs => ⟨hs.grants, hfree hs.room⟩)).mono ?_
    rintro _ slot ⟨items, hitems, rfl⟩
    rw [hy] at hitems ⊢
    refine ⟨?_, ?_⟩
    · rw [List.filterMap_cons_some haccepted, List.filterMap_nil]
      exact hitems
    · rw [hdiverted]
      exact hunknown

theorem Chunk.takes (hf : 0 < f ∧ f ≤ maxNumber) (chunk : Chunk t)
    {u : Parse (PackedSlot Sub t packed storage)}
    (hroom : Slot.Admits B preserve f chunk.values u.obj) :
    Takes B (FieldKind.parseCase ops preserve chunk.wire f (.repeated (.scalar t) packed storage))
      u chunk.body (fun _ slot => Slot.After preserve f chunk.values u.obj slot)
      (1 + chunk.body.length) := by
  cases chunk with
  | single v =>
    have hunpacked : t.wireType ≠ .len := by cases t <;> exact nofun
    have hparse : FieldKind.parseCase ops preserve t.wireType f
        (.repeated (.scalar t) packed storage) = readRepeatedField ops preserve t.wireType f :=
      if_neg hunpacked
    unfold wire
    rw [hparse]
    exact readUnpacked_takes hf v hroom
  | packed run bytes h =>
    exact (readPackedField_takes preserve hf run h hroom).le (Nat.le_add_left _ _)

theorem Slot.After.append {run run' : List (SpelledScalar t)}
    {o o' o'' : PackedSlot Sub t packed storage} (h : Slot.After preserve f run o o')
    (h' : Slot.After preserve f run' o' o'') : Slot.After preserve f (run ++ run') o o'' := by
  refine ⟨?_, ?_⟩
  · rw [h'.values, h.values, List.filterMap_append, List.append_assoc]
  · rw [h'.unknown, h.unknown, List.flatMap_append, List.append_assoc]

/-- Where there is room for all of a run, there is for what follows its start. -/
theorem Slot.Admits.next {run run' run'' : List (SpelledScalar t)}
    {o o' : PackedSlot Sub t packed storage}
    (h : Slot.Admits B preserve f (run ++ (run' ++ run'')) o)
    (ho : Slot.After preserve f run o o') : Slot.Admits B preserve f run' o' := by
  obtain ⟨hvalues, hunknown⟩ := h
  simp only [List.filterMap_append, List.flatMap_append, List.length_append] at hvalues hunknown
  refine ⟨?_, ?_⟩
  · rw [ho.values, List.length_append]
    exact hvalues.mono (by omega)
  · rw [ho.unknown, List.length_append]
    exact hunknown.mono (by omega)

/-- The bounds of so many values: the field has room for those that are accepted, and the storage
for the others. -/
def Slot.packedBounds (limits : Limits) (preserve : Bool) (f : ℕ) (run : List (SpelledScalar t))
    (slot : PackedSlot Sub t packed storage) : Bounds where
  limits := limits
  room := slot.value.val.length + (run.filterMap SpelledScalar.accepted).length ≤
      storage.capacity ∧
    slot.unknown.val.length + (run.flatMap (SpelledScalar.diverted preserve f)).length ≤
      limits.maxUnknownFieldBytes

theorem Slot.admits_packedBounds (limits : Limits) (run : List (SpelledScalar t))
    (slot : PackedSlot Sub t packed storage) :
    Slot.Admits (slot.packedBounds limits preserve f run) preserve f run slot where
  values hroom := hroom.1
  unknown hroom := hroom.2

/-- No occurrence of a repeated scalar opens a layer. -/
private theorem not_nests_chunks {S : Schema} {id : ℕ} {i : (S id).Index}
    (hkind : (S id).kind i = .repeated (.scalar t) packed storage)
    {chunks : List (List UInt8 × Chunk t)}
    (hkeys : ∀ c ∈ chunks, Key c.1 ((S id).number i) c.2.wire.code) (d : ℕ) :
    ¬S.Nests (d + 1) (.message id) (chunks.flatMap fun c => c.1 ++ c.2.body) := by
  induction chunks with
  | nil => exact Schema.not_nests_nil
  | cons c chunks ih =>
    have hkey : Key c.1 (Tag.mk ((S id).number i) c.2.wire).fieldNumber
      (Tag.mk ((S id).number i) c.2.wire).wireType.code := hkeys c List.mem_cons_self
    have hopens : S.opens (.message id) ⟨(S id).number i, c.2.wire⟩ = none := by
      cases c.2 with
      | single v => exact opens_scalar t
      | packed run bytes h =>
        change ((S id).find ((S id).number i)).bind _ = none
        rw [(S id).find_eq_some.mpr rfl, Option.bind_some, hkind]
        rfl
    rw [List.flatMap_cons, List.append_assoc]
    refine Schema.not_nests_cons hkey (c.2.whole _) ?_
      (ih fun c hc => hkeys c (List.mem_cons_of_mem _ hc))
    rintro ⟨inner, _, hinner, _⟩
    rw [hopens] at hinner
    cases hinner

variable (ops preserve) in
private theorem chunks_takes {i : M.Index} (hkind : M.kind i = .repeated (.scalar t) packed storage)
    {chunks : List (List UInt8 × Chunk t)}
    (hkeys : ∀ c ∈ chunks, Key c.1 (M.number i) c.2.wire.code) {s : Parse (MessageData M Sub)}
    (hrest : s.reader.rest = chunks.flatMap fun c => c.1 ++ c.2.body) (hsteady : s.reader.Steady)
    (hadmits : Slot.Admits B preserve (M.number i) (chunks.flatMap fun c => c.2.values)
      (s.obj.slotAt hkind)) :
    Takes B (MessageData.mergeFieldsFrom ops preserve) s s.reader.rest fun _ o =>
      Slot.After preserve (M.number i) (chunks.flatMap fun c => c.2.values) (s.obj.slotAt hkind)
        (o.slotAt hkind) ∧ ∀ j, j ≠ i → o.fields j = s.obj.fields j := by
  refine MessageData.takes_occurrences hkind rfl hkeys ?_
    (P := fun pre slot => Slot.After preserve (M.number i) (pre.flatMap fun c => c.2.values)
      (s.obj.slotAt hkind) slot) ?_ hrest hsteady ?_
  · intro c _
    cases c.2 with
    | single v => simp [FieldKind.allows, Chunk.wire]
    | packed run bytes h => simp [FieldKind.allows, Chunk.wire]
  · intro pre c u hsplit hpre
    obtain ⟨post, hpost⟩ := hsplit
    rw [← hpost, List.append_assoc, List.flatMap_append] at hadmits
    refine (c.2.takes ⟨M.number_pos i, M.number_le i⟩ (hadmits.next hpre)).mono
      fun _ slot hslot => ?_
    rw [List.flatMap_append, List.flatMap_cons, List.flatMap_nil, List.append_nil]
    exact hpre.append hslot
  · exact ⟨(List.append_nil _).symm, (List.append_nil _).symm⟩

/-- Packed or not, in any mixture: the values of all occurrences are appended in their order, those
that are none of their enumeration stored, and the other fields are left alone. This fails only
where memory, a limit or the room of the field does not suffice. -/
theorem mergeFieldsFrom_repeated (S : Schema) {levels id : ℕ} {i : (S id).Index}
    (hkind : (S id).kind i = .repeated (.scalar t) packed storage)
    {chunks : List (List UInt8 × Chunk t)}
    (hkeys : ∀ c ∈ chunks, Key c.1 ((S id).number i) c.2.wire.code)
    {s : Parse (Message S (levels + 1) id)}
    (hrest : s.reader.rest = chunks.flatMap fun c => c.1 ++ c.2.body)
    (hsteady : s.reader.Steady) :
    Exits (Message.mergeFieldsFrom S preserve (levels + 1) id s)
      (fun _ u => u.reader.rest = [] ∧
        (MessageData.fieldAt hkind u.obj).val = (MessageData.fieldAt hkind s.obj).val ++
          (chunks.flatMap fun c => c.2.values).filterMap SpelledScalar.accepted ∧
        u.obj.unknownFields.val = s.obj.unknownFields.val ++
          (chunks.flatMap fun c => c.2.values).flatMap
            (SpelledScalar.diverted preserve ((S id).number i)) ∧
        ∀ j, j ≠ i → u.obj.fields j = s.obj.fields j)
      (fun e _ => e.IsLimit ∧
        ¬((MessageData.slotAt hkind s.obj).packedBounds s.ctx.limits preserve ((S id).number i)
          (chunks.flatMap fun c => c.2.values)).Suffice s.reader.rest.length s.ctx s.reader) := by
  have htakes := chunks_takes (M := S id) (Message.ops S preserve levels) preserve hkind hkeys hrest
    hsteady (Slot.admits_packedBounds s.ctx.limits _ _)
  have hflat := not_nests_chunks hkind hkeys s.levels
  rw [← hrest] at hflat
  have hlayered := Message.mergeFieldsFrom_layered S preserve (levels + 1) id s
  refine ((htakes (List.prefix_refl _)).and hlayered).mono ?_ ?_
  · rintro _ u ⟨⟨⟨hmoved, _⟩, hafter, hothers⟩, _⟩
    refine ⟨?_, hafter.values, hafter.unknown, hothers⟩
    rw [hmoved.rest, List.drop_length]
  · rintro e _ ⟨he | he, hnests⟩
    · exact absurd (hnests he) hflat
    · exact he

end

/-- Numbers. -/
def numbersSchema : Schema := fun _ =>
  { fields := [⟨4, .repeated (.scalar .int32) true (.vector ⟨10, by decide⟩)⟩]
    valid := by decide
    distinct := by decide }

theorem numbersSchema_kind : (numbersSchema 0).kind ⟨0, by decide⟩ =
    .repeated (.scalar .int32) true (.vector ⟨10, by decide⟩) := rfl

private theorem numbers_room : (runBytes [SpelledScalar.written .int32 (1 : BitVec 32),
    SpelledScalar.written .int32 (2 : BitVec 32)]).length ≤ usizeMax := by
  decide +kernel

/-- A number on its own, and two in a run. -/
def numbersRun : List (List UInt8 × Chunk .int32) :=
  [(key 4 0, .single (.written .int32 (3 : BitVec 32))),
    (key 4 2, .packed _ _ (delimited_encode numbers_room))]

theorem mergeFieldsFrom_repeated_numbers :
    ∃ s : Parse (Message numbersSchema 2 0),
      s.reader.rest = [32, 3, 34, 2, 1, 2] ∧
      Exits (Message.mergeFieldsFrom numbersSchema true 2 0 s)
        (fun _ u => (MessageData.fieldAt numbersSchema_kind u.obj).val = [3, 1, 2])
        (fun _ _ => False) := by
  have hkeys : ∀ c ∈ numbersRun, Key c.1 ((numbersSchema 0).number ⟨0, by decide⟩)
      c.2.wire.code := by
    intro c hc
    unfold numbersRun at hc
    rcases List.mem_cons.mp hc with rfl | hc
    · exact key_canonical (by decide) (by decide) (by decide)
    · rw [List.mem_singleton.mp hc]
      exact key_canonical (by decide) (by decide) (by decide)
  obtain ⟨s, hs⟩ : ∃ s : Parse (Message numbersSchema 2 0), s =
      { ctx := { limits := {}, grants := fun _ => true }
        obj := MessageData.empty
        reader := .slice { data := numbersRun.flatMap fun c => c.1 ++ c.2.body } } := ⟨_, rfl⟩
  have hrest : s.reader.rest = numbersRun.flatMap fun c => c.1 ++ c.2.body := by
    rw [hs]
    rfl
  have hbytes : s.reader.rest = [32, 3, 34, 2, 1, 2] := by
    rw [hrest]
    decide +kernel
  have hsteady : s.reader.Steady := by
    rw [hs]
    trivial
  refine ⟨s, hbytes, (mergeFieldsFrom_repeated numbersSchema numbersSchema_kind hkeys hrest
    hsteady).mono ?_ ?_⟩
  · rintro _ u ⟨_, hvalues, _⟩
    rw [hvalues, hs]
    decide +kernel
  · rintro e _ ⟨_, hn⟩
    refine hn ⟨?_, rfl, ?_, ?_, ?_, fun budget => ?_⟩
    · rw [hs]
      exact ⟨by decide +kernel, by decide +kernel⟩
    · rw [hs]
      exact fun _ => rfl
    · rw [hbytes, hs]
      decide
    · rw [hbytes, hs]
      decide
    · rw [hs]
      trivial

instance {key : KeyKind} {value : ValueKind} (fields : List (SpelledField Sub key value)) :
    Decidable (Diverts fields) :=
  decidable_of_iff ((givenValues fields).getLast?.any value.undeclared = true) <| by
    unfold Diverts
    simp [Option.any_eq_true]

/-- An occurrence of a map field: its tag, and an entry of any fields. -/
structure SpelledEntry (Sub : ℕ → Type) (key : KeyKind) (value : ValueKind) where
  tag : List UInt8
  fields : List (SpelledField Sub key value)
  body : List UInt8
  delimited : Delimited body (payload fields)

section
variable {key : KeyKind} {value : ValueKind} {maxBuckets : Usize} {f : ℕ}

/-- What is stored of an entry whose value is none of its enumeration. -/
def SpelledEntry.diverted (preserve : Bool) (f : ℕ) (e : SpelledEntry Sub key value) :
    List UInt8 :=
  if Diverts e.fields ∧ preserve = true then (Tree.bytes f (payload e.fields)).encode else []

/-- The last entry for a key. -/
def lastEntry (entries : List (SpelledEntry Sub key value)) (k : key.Carrier Sub) :
    Option (SpelledEntry Sub key value) :=
  (entries.filter fun e => ¬Diverts e.fields ∧ MapKey.equal (lastKey e.fields) k = true).getLast?

private theorem lastEntry_snoc (entries : List (SpelledEntry Sub key value))
    (e : SpelledEntry Sub key value) (k : key.Carrier Sub) : lastEntry (entries ++ [e]) k =
      if ¬Diverts e.fields ∧ MapKey.equal (lastKey e.fields) k = true then some e
      else lastEntry entries k := by
  unfold lastEntry
  rw [List.filter_append]
  split
  · next h => simp [h]
  · next h =>
    have hnil : [e].filter (fun e => ¬Diverts e.fields ∧
        MapKey.equal (lastKey e.fields) k = true) = [] := by
      simpa using h
    rw [hnil, List.append_nil]

/-- What the entries make of the map and of the storage of the unknown fields. -/
structure Slot.Entered (ops : MessageOps Sub) (preserve : Bool) (f : ℕ)
    (entries : List (SpelledEntry Sub key value)) (init : value.Carrier Sub)
    (old new : Slot Sub (.map key value maxBuckets)) : Prop where
  given (k : key.Carrier Sub) (e : SpelledEntry Sub key value) (h : lastEntry entries k = some e) :
    ∃ v, value.GivesAll ops (givenValues e.fields) init v ∧ new.value.val.lookup k = some v
  kept (k : key.Carrier Sub) (h : lastEntry entries k = none) :
    new.value.val.lookup k = old.value.val.lookup k
  unknown : new.unknown.val =
    old.unknown.val ++ entries.flatMap (SpelledEntry.diverted preserve f)

/-- The bounds of so many entries: the map has buckets for them, the storage room for those that are
stored, and there is what the messages among the values need. -/
def Slot.entryBounds (limits : Limits) (preserve : Bool) (f : ℕ)
    (entries : List (SpelledEntry Sub key value)) (needs : Prop)
    (slot : Slot Sub (.map key value maxBuckets)) : Bounds where
  limits := limits
  room := HashMap.Fits maxBuckets.val (slot.value.val.size + entries.length) ∧
    slot.unknown.val.length + (entries.flatMap (SpelledEntry.diverted preserve f)).length ≤
      limits.maxUnknownFieldBytes ∧ needs

/-- What the bounds give for one of the entries. -/
private theorem Slot.Entered.fits {entries pre post : List (SpelledEntry Sub key value)}
    {e : SpelledEntry Sub key value} (hentries : pre ++ [e] ++ post = entries)
    {init : value.Carrier Sub} {o o' : Slot Sub (.map key value maxBuckets)} {limits : Limits}
    {needs : Prop} (h : Slot.Entered ops preserve f pre init o o')
    (hsize : o'.value.val.size ≤ o.value.val.size + pre.length) :
    o'.Fits (o.entryBounds limits preserve f entries needs) preserve f e.fields where
  value _ hroom := by
    refine HashMap.Fits.mono hroom.1 ?_
    rw [← hentries, List.length_append, List.length_append, List.length_singleton]
    omega
  unknown hd hp hroom := by
    have hstored := hroom.2.1
    have hdiverted : e.diverted preserve f = (Tree.bytes f (payload e.fields)).encode :=
      if_pos ⟨hd, hp⟩
    rw [← hentries, List.flatMap_append, List.flatMap_append, List.flatMap_cons,
      List.flatMap_nil, List.append_nil, hdiverted] at hstored
    rw [h.unknown]
    simp only [List.length_append] at hstored ⊢
    exact Nat.le_trans (by omega) hstored

private theorem Slot.Entered.snoc {entries : List (SpelledEntry Sub key value)}
    {e : SpelledEntry Sub key value} {init : value.Carrier Sub}
    {o o' o'' : Slot Sub (.map key value maxBuckets)}
    (h : Slot.Entered ops preserve f entries init o o')
    (h' : Inserts ops preserve f e.fields init o' o'') :
    Slot.Entered ops preserve f (entries ++ [e]) init o o'' := by
  by_cases hd : Diverts e.fields
  · obtain ⟨hvalue, hunknown⟩ := h'.diverted hd
    have hlast (k : key.Carrier Sub) : lastEntry (entries ++ [e]) k = lastEntry entries k := by
      rw [lastEntry_snoc, if_neg fun hc => hc.1 hd]
    refine ⟨fun k e' he => ?_, fun k hk => ?_, ?_⟩
    · rw [hvalue]
      rw [hlast] at he
      exact h.given k e' he
    · rw [hvalue]
      rw [hlast] at hk
      exact h.kept k hk
    · rw [hunknown, h.unknown, List.flatMap_append, List.append_assoc]
      simp [SpelledEntry.diverted, hd]
  · obtain ⟨hunknown, v, hv, hlookup⟩ := h'.inserted hd
    refine ⟨fun k e' he => ?_, fun k hk => ?_, ?_⟩
    · rw [lastEntry_snoc] at he
      rw [hlookup]
      split at he
      · next hc =>
        cases he
        exact ⟨v, hv, if_pos hc.2⟩
      · next hc =>
        rw [if_neg fun hk => hc ⟨hd, hk⟩]
        exact h.given k e' he
    · rw [lastEntry_snoc] at hk
      rw [hlookup]
      split at hk
      · cases hk
      · next hc =>
        rw [if_neg fun hk => hc ⟨hd, hk⟩]
        exact h.kept k hk
    · rw [hunknown, h.unknown, List.flatMap_append]
      simp [SpelledEntry.diverted, hd]

variable (ops preserve) in
private theorem entries_take {i : M.Index} (hkind : M.kind i = .map key value maxBuckets)
    {entries : List (SpelledEntry Sub key value)}
    (hkeys : ∀ e ∈ entries, Key e.tag (M.number i) WireType.len.code) {init : value.Carrier Sub}
    (hinit : value.temporary ops = .ok init) {s : Parse (MessageData M Sub)} {limits : Limits}
    {needs : Prop}
    (hvalues : ∀ e ∈ entries, Acceptable ((s.obj.slotAt hkind).entryBounds limits preserve
      (M.number i) entries needs) ops e.fields init)
    (hrest : s.reader.rest = entries.flatMap fun e => e.tag ++ e.body)
    (hsteady : s.reader.Steady) :
    Takes ((s.obj.slotAt hkind).entryBounds limits preserve (M.number i) entries needs)
      (MessageData.mergeFieldsFrom ops preserve) s s.reader.rest fun _ o =>
        Slot.Entered ops preserve (M.number i) entries init (s.obj.slotAt hkind) (o.slotAt hkind) ∧
          ∀ j, j ≠ i → o.fields j = s.obj.fields j := by
  refine (MessageData.takes_occurrences hkind rfl hkeys (fun _ _ => rfl)
    (P := fun pre slot => Slot.Entered ops preserve (M.number i) pre init (s.obj.slotAt hkind)
      slot ∧ slot.value.val.size ≤ (s.obj.slotAt hkind).value.val.size + pre.length)
    ?_ hrest hsteady ?_).mono fun _ _ h => ⟨h.1.1, h.2⟩
  · intro pre e u ⟨post, hpost⟩ ⟨hentered, hsize⟩
    have he : e ∈ entries := by rw [← hpost]; simp
    refine (readMap_takes preserve ⟨M.number_pos i, M.number_le i⟩ e.delimited (hvalues e he)
      hinit (hentered.fits hpost hsize)).mono fun _ slot hslot => ⟨hentered.snoc hslot, ?_⟩
    have hnext := hslot.size_le
    rw [List.length_append, List.length_singleton]
    omega
  · refine ⟨⟨fun k e he => ?_, fun _ _ => rfl, (List.append_nil _).symm⟩, Nat.le_refl _⟩
    cases he

/-- Entries of a map, each of any fields: under every key is what the last entry for it gives, and
under the others what there was. This fails only for entries that nest too deep, or where memory, a
limit or the room of the map does not suffice. -/
theorem mergeFieldsFrom_map (S : Schema) (preserve : Bool) (needs : Prop) {levels id : ℕ}
    {i : (S id).Index}
    (hkind : (S id).kind i = .map key value maxBuckets)
    {entries : List (SpelledEntry (Message S levels) key value)}
    (hkeys : ∀ e ∈ entries, Key e.tag ((S id).number i) WireType.len.code)
    {init : value.Carrier (Message S levels)}
    (hinit : value.temporary (Message.ops S preserve levels) = .ok init)
    {s : Parse (Message S (levels + 1) id)}
    (hvalues : ∀ e ∈ entries, Acceptable ((MessageData.slotAt hkind s.obj).entryBounds s.ctx.limits
      preserve ((S id).number i) entries needs) (Message.ops S preserve levels) e.fields init)
    (hrest : s.reader.rest = entries.flatMap fun e => e.tag ++ e.body)
    (hsteady : s.reader.Steady) :
    Exits (Message.mergeFieldsFrom S preserve (levels + 1) id s)
      (fun _ u => u.reader.rest = [] ∧
        Slot.Entered (Message.ops S preserve levels) preserve ((S id).number i) entries init
          (MessageData.slotAt hkind s.obj) (MessageData.slotAt hkind u.obj) ∧
        ∀ j, j ≠ i → u.obj.fields j = s.obj.fields j)
      (fun e _ =>
        e.code = .recursionLimit ∧ S.Nests (s.ctx.levels + 1) (.message id) s.reader.rest ∨
        e.IsLimit ∧ ¬((MessageData.slotAt hkind s.obj).entryBounds s.ctx.limits preserve
          ((S id).number i) entries needs).Suffice s.reader.rest.length s.ctx s.reader) := by
  have htakes := entries_take (M := S id) (Message.ops S preserve levels) preserve hkind hkeys hinit
    hvalues hrest hsteady
  have hlayered := Message.mergeFieldsFrom_layered S preserve (levels + 1) id s
  refine ((htakes (List.prefix_refl _)).and hlayered).mono ?_ ?_
  · rintro _ u ⟨⟨⟨hmoved, _⟩, hentered, hothers⟩, _⟩
    refine ⟨?_, hentered, hothers⟩
    rw [hmoved.rest, List.drop_length]
  · rintro e _ ⟨he | he, hnests⟩
    · exact .inl ⟨he, hnests he⟩
    · exact .inr he

end

/-- Numbers with a color each, which is one of two. -/
theorem colorsCapacity_le : 64 ≤ usizeMax := by decide

def colorsSchema : Schema := fun _ =>
  { fields := [⟨5, .map (.scalar .int32 int32_isKey) (.scalar (.closedEnum [0, 1]))
      ⟨64, colorsCapacity_le⟩⟩]
    valid := by decide
    distinct := by decide }

theorem colorsSchema_kind : (colorsSchema 0).kind ⟨0, by decide⟩ =
    .map (.scalar .int32 int32_isKey) (.scalar (.closedEnum [0, 1])) ⟨64, colorsCapacity_le⟩ := rfl

abbrev ColorField : Type :=
  SpelledField (Message colorsSchema 1) (.scalar .int32 int32_isKey)
    (.scalar (.closedEnum [0, 1]))

theorem entryKey_canonical : Key (key 1 0) 1 0 :=
  key_canonical (by decide) (by decide) (by decide)

theorem entryValue_canonical : Key (key 2 0) 2 0 :=
  key_canonical (by decide) (by decide) (by decide)

def colorKey (k : BitVec 32) : ColorField where
  field := .key k
  bytes := key 1 0 ++ scalarBytes .int32 k
  spells := .key entryKey_canonical (ScalarType.encodes_scalarBytes .int32 k)

def colorValue (v : BitVec 32) : ColorField where
  field := .value v
  bytes := key 2 0 ++ scalarBytes (.closedEnum [0, 1]) v
  spells := .value entryValue_canonical
    (ScalarType.encodes_scalarBytes (.closedEnum [0, 1]) v)

abbrev ColorEntry : Type :=
  SpelledEntry (Message colorsSchema 1) (.scalar .int32 int32_isKey)
    (.scalar (.closedEnum [0, 1]))

def colorEntry (fields : List ColorField) (h : (payload fields).length ≤ usizeMax) :
    ColorEntry where
  tag := key 5 2
  fields := fields
  body := _
  delimited := delimited_encode h

/-- The second entry has no color, and the third two keys. -/
def colorEntries : List ColorEntry :=
  [colorEntry [colorKey 1, colorValue 1] (by decide +kernel),
    colorEntry [colorKey 1, colorValue 7] (by decide +kernel),
    colorEntry [colorValue 0, colorKey 2, colorKey 3] (by decide +kernel)]

/-- The colors given by the last entry for a number. -/
def lastColors (k : BitVec 32) : Option (List (BitVec 32)) :=
  (lastEntry colorEntries k).map fun e => givenValues e.fields

theorem mergeFieldsFrom_map_colors :
    ∃ s : Parse (Message colorsSchema 2 0),
      s.reader.rest =
        [42, 4, 8, 1, 16, 1, 42, 4, 8, 1, 16, 7, 42, 6, 16, 0, 8, 2, 8, 3] ∧
      Exits (Message.mergeFieldsFrom colorsSchema true 2 0 s)
        (fun _ u =>
          (MessageData.fieldAt colorsSchema_kind u.obj).val.lookup (1 : BitVec 32) =
            some (1 : BitVec 32) ∧
          (MessageData.fieldAt colorsSchema_kind u.obj).val.lookup (2 : BitVec 32) = none ∧
          (MessageData.fieldAt colorsSchema_kind u.obj).val.lookup (3 : BitVec 32) =
            some (0 : BitVec 32) ∧
          u.obj.unknownFields.val = [42, 4, 8, 1, 16, 7]) (fun _ _ => False) := by
  have hkeys : ∀ e ∈ colorEntries, Key e.tag ((colorsSchema 0).number ⟨0, by decide⟩)
      WireType.len.code := by
    intro e he
    unfold colorEntries at he
    have htag : e.tag = key 5 2 := by
      rcases List.mem_cons.mp he with rfl | he
      · rfl
      rcases List.mem_cons.mp he with rfl | he
      · rfl
      · rw [List.mem_singleton.mp he]
        rfl
    rw [htag]
    exact key_canonical (by decide) (by decide) (by decide)
  obtain ⟨s, hs⟩ : ∃ s : Parse (Message colorsSchema 2 0), s =
      { ctx := { limits := {}, grants := fun _ => true }
        obj := MessageData.empty
        reader := .slice { data := colorEntries.flatMap fun e => e.tag ++ e.body } } := ⟨_, rfl⟩
  have hrest : s.reader.rest = colorEntries.flatMap fun e => e.tag ++ e.body := by
    rw [hs]
    rfl
  have hbytes : s.reader.rest =
      [42, 4, 8, 1, 16, 1, 42, 4, 8, 1, 16, 7, 42, 6, 16, 0, 8, 2, 8, 3] := by
    rw [hrest]
    decide +kernel
  have hsteady : s.reader.Steady := by
    rw [hs]
    trivial
  have hinit : (ValueKind.scalar (.closedEnum [0, 1])).temporary (Message.ops colorsSchema true 1) =
    .ok (0 : BitVec 32) := rfl
  have hmerge := mergeFieldsFrom_map colorsSchema true True colorsSchema_kind hkeys hinit
    (fun _ _ _ _ _ _ _ _ _ => trivial) hrest hsteady
  refine ⟨s, hbytes, hmerge.mono ?_ ?_⟩
  · rintro _ u ⟨_, hentered, _⟩
    have hgiven (k v : BitVec 32) (hlast : lastColors k = some [v]) :
        (MessageData.fieldAt colorsSchema_kind u.obj).val.lookup k = some v := by
      obtain ⟨e, he, hcolors⟩ := Option.map_eq_some_iff.mp hlast
      obtain ⟨w, hw, hlookup⟩ := hentered.given k e he
      have hv : w = (givenValues e.fields).getLast?.getD (0 : BitVec 32) := hw
      rw [hcolors] at hv
      exact hlookup.trans (congrArg some hv)
    refine ⟨hgiven 1 1 (by decide +kernel), ?_, hgiven 3 0 (by decide +kernel), ?_⟩
    · have hnone : lastEntry colorEntries (2 : BitVec 32) = none :=
        Option.isNone_iff_eq_none.mp (by decide +kernel)
      refine (hentered.kept (2 : BitVec 32) hnone).trans ?_
      rw [hs]
      decide +kernel
    · have hunknown := hentered.unknown
      rw [hs] at hunknown
      exact hunknown.trans (by decide +kernel)
  · rintro e _ (⟨_, hnests⟩ | ⟨_, hn⟩)
    · have hle := hnests.le_length
      rw [hbytes, hs] at hle
      exact absurd hle (by decide)
    · refine hn ⟨?_, rfl, ?_, ?_, ?_, fun budget => ?_⟩
      · rw [hs]
        exact ⟨by decide +kernel, by decide +kernel, trivial⟩
      · rw [hs]
        exact fun _ => rfl
      · rw [hbytes, hs]
        decide
      · rw [hbytes, hs]
        decide
      · rw [hs]
        trivial

end Protocyte
