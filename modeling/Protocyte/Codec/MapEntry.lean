import Protocyte.Codec.WellFormed

/-! Entries of a map: what the parser makes of a payload of well-formed fields, whatever their
order and number, and what it inserts for them. -/
namespace Protocyte
open Foundation.Computation Foundation.Wire

variable {O α : Type} {Sub : ℕ → Type}

/-- The result of a success is the one of this run. -/
theorem Takes.witnessed {B : Bounds} {x : ParseM O α} {s : Parse O} {bs : List UInt8}
    {Q : α → O → Prop} {c : ℕ} (hx : Takes B x s bs Q c) :
    Takes B x s bs (fun a o => Q a o ∧ ∃ t, x s = .ok a t ∧ t.obj = o) c := by
  intro hs
  refine Exits.intro ?_ fun e t h => (hx hs).error h
  intro a t h
  obtain ⟨ht, ha⟩ := (hx hs).ok h
  exact ⟨ht, ha, t, h, rfl⟩

namespace MessageOps

variable (B : Bounds) (ops : MessageOps Sub)

/-- The payload parses into `m`, unless it nests too deep or the bounds do not suffice. -/
def Accepts (id : ℕ) (payload : List UInt8) (m : Sub id) : Prop :=
  ∀ t : Parse (Sub id), t.obj = m → t.reader.rest = payload → t.reader.Steady →
    Takes B (ops.mergeFieldsFrom id) t payload fun _ _ => True

/-- A parse of the payload makes `m'` of `m`. -/
def Merges (id : ℕ) (payload : List UInt8) (m m' : Sub id) : Prop :=
  ∃ s t : Parse (Sub id), s.obj = m ∧ s.reader.rest = payload ∧ s.reader.Steady ∧
    ops.mergeFieldsFrom id s = .ok () t ∧ t.obj = m'

/-- Payload after payload. -/
def MergesAll (id : ℕ) : List (List UInt8) → Sub id → Sub id → Prop
  | [], m, m' => m' = m
  | payload :: rest, m, m' =>
    ∃ between, ops.Merges id payload m between ∧ MergesAll id rest between m'

variable {ops}

theorem MergesAll.snoc {id : ℕ} {payloads : List (List UInt8)} {payload : List UInt8}
    {m m' m'' : Sub id} (h : ops.MergesAll id payloads m m') (h' : ops.Merges id payload m' m'') :
    ops.MergesAll id (payloads ++ [payload]) m m'' := by
  induction payloads generalizing m with
  | nil =>
    cases h
    exact ⟨m'', h', rfl⟩
  | cons first rest ih =>
    obtain ⟨between, hfirst, hrest⟩ := h
    exact ⟨between, hfirst, ih hrest⟩

end MessageOps

namespace KeyKind

/-- The bytes a key may have after its tag. -/
def Encodes : (key : KeyKind) → List UInt8 → key.Carrier Sub → Prop
  | scalar t _, bs, k => t.Encodes bs k
  | string, bs, k => Delimited bs k.val ∧ validateUtf8 k.val = true

end KeyKind

namespace ValueKind

/-- What an occurrence of a value holds: the value, or the payload of a message. -/
abbrev Given : ValueKind → Type
  | scalar t => t.Value
  | string | bytes => Bytes
  | message .. => List UInt8

/-- The bytes an occurrence may have after its tag. -/
def Encodes : (kind : ValueKind) → List UInt8 → kind.Given → Prop
  | scalar t, bs, v => t.Encodes bs v
  | string, bs, v => Delimited bs v.val ∧ validateUtf8 v.val = true
  | bytes, bs, v => Delimited bs v.val
  | message .., bs, payload => Delimited bs payload

/-- What is given parses, where the temporary holds `v`. -/
def Accepts (B : Bounds) (ops : MessageOps Sub) :
    (kind : ValueKind) → kind.Given → kind.Carrier Sub → Prop
  | message id _, payload, v => ops.Accepts B id payload v
  | scalar _, _, _ | string, _, _ | bytes, _, _ => True

/-- The number of no value of a closed enumeration. -/
def undeclared : (kind : ValueKind) → kind.Given → Bool
  | scalar t, v => t.closedInvalid v
  | string, _ | bytes, _ | message .., _ => false

/-- What is read, where the temporary holds `v`. -/
def Gives (ops : MessageOps Sub) : (kind : ValueKind) → kind.Given → kind.Carrier Sub →
    kind.Carrier Sub → Prop
  | scalar _, given, _, v' => v' = given
  | string, given, _, v' | bytes, given, _, v' => v' = given
  | message id _, payload, v, v' => ops.Merges id payload v v'

/-- What the occurrences make of a temporary: the last one counts, and messages are merged. -/
def GivesAll (ops : MessageOps Sub) : (kind : ValueKind) → List kind.Given → kind.Carrier Sub →
    kind.Carrier Sub → Prop
  | scalar _, given, v, v' => v' = given.getLast?.getD v
  | string, given, v, v' | bytes, given, v, v' => v' = given.getLast?.getD v
  | message id _, payloads, v, v' => ops.MergesAll id payloads v v'

theorem GivesAll.nil (ops : MessageOps Sub) (kind : ValueKind) (v : kind.Carrier Sub) :
    kind.GivesAll ops [] v v := by
  cases kind with
  | scalar t | string | bytes | message id boxed => rfl

theorem GivesAll.snoc {ops : MessageOps Sub} {kind : ValueKind} {given : List kind.Given}
    {last : kind.Given} {v v' v'' : kind.Carrier Sub}
    (h : (∃ id boxed, kind = .message id boxed) → kind.GivesAll ops given v v')
    (h' : kind.Gives ops last v' v'') : kind.GivesAll ops (given ++ [last]) v v'' := by
  have hlast (g : Bytes) (gs : List Bytes) (w : Bytes) : (gs ++ [g]).getLast?.getD w = g := by simp
  cases kind with
  | scalar t =>
    have hlast : (given ++ [last]).getLast?.getD v = last := by simp
    exact Eq.trans h' hlast.symm
  | string | bytes => exact Eq.trans h' (hlast last given v).symm
  | message id boxed => exact MessageOps.MergesAll.snoc (h ⟨id, boxed, rfl⟩) h'

end ValueKind

namespace Takes

variable {B : Bounds} {ops : MessageOps Sub} {s : Parse O} {bs : List UInt8}

theorem readMapKey (f : ℕ) {key : KeyKind} {k old : key.Carrier Sub} (h : key.Encodes bs k) :
    Takes B (readMapMember ops f key.value old : ParseM O (key.Carrier Sub)) s bs
      fun v o => v = k ∧ o = s.obj := by
  cases key with
  | scalar t ht => exact onReader (ScalarType.Encodes.reads h)
  | string => exact readLengthDelimited h.1 fun _ => h.2

theorem readMapMember (f : ℕ) {kind : ValueKind} {given : kind.Given} {old : kind.Carrier Sub}
    (h : kind.Encodes bs given) (haccepts : kind.Accepts B ops given old) :
    Takes B (readMapMember ops f kind old : ParseM O (kind.Carrier Sub)) s bs
      fun v o => kind.Gives ops given old v ∧ o = s.obj := by
  cases kind with
  | scalar t => exact onReader (ScalarType.Encodes.reads h)
  | string => exact readLengthDelimited h.1 fun _ => h.2
  | bytes => exact readLengthDelimited h fun hfalse => absurd hfalse Bool.false_ne_true
  | message id boxed =>
    refine readMessagePartial f h fun t ho hrest hsteady => ?_
    refine ((haccepts t ho hrest hsteady).witnessed).mono ?_
    rintro ⟨⟩ o ⟨_, u, hu, hou⟩
    exact ⟨t, u, ho, hrest, hsteady, hu, hou⟩

end Takes

/-- A field in the payload of an entry. -/
inductive EntryField (Sub : ℕ → Type) (key : KeyKind) (value : ValueKind)
  | key (k : key.Carrier Sub)
  | value (given : value.Given)
  | other

/-- The bytes a field may have. Fields of another number or wire type are passed over. -/
inductive EntryField.Spells {key : KeyKind} {value : ValueKind} :
    EntryField Sub key value → List UInt8 → Prop
  | key {ks bs : List UInt8} {k : key.Carrier Sub} (hk : Key ks 1 key.value.wireType.code)
      (h : key.Encodes bs k) : Spells (.key k) (ks ++ bs)
  | value {ks bs : List UInt8} {given : value.Given} (hk : Key ks 2 value.wireType.code)
      (h : value.Encodes bs given) : Spells (.value given) (ks ++ bs)
  | other {ks bs : List UInt8} {tag : Tag} {d : ℕ} {t : Tree}
      (hk : Key ks tag.fieldNumber tag.wireType.code)
      (h : Body d tag.fieldNumber tag.wireType.code bs t)
      (hkey : ¬(tag.fieldNumber = 1 ∧ tag.wireType = key.value.wireType))
      (hvalue : ¬(tag.fieldNumber = 2 ∧ tag.wireType = value.wireType)) :
      Spells .other (ks ++ bs)

theorem EntryField.Spells.ne_nil {key : KeyKind} {value : ValueKind}
    {field : EntryField Sub key value} {bs : List UInt8} (h : field.Spells bs) : bs ≠ [] := by
  have hkey {ks cs : List UInt8} {f c : ℕ} (hk : Key ks f c) : ks ++ cs ≠ [] := by
    have hpos := hk.length_pos
    intro hnil
    rw [(List.append_eq_nil_iff.mp hnil).1] at hpos
    exact absurd hpos (Nat.lt_irrefl 0)
  cases h with
  | key hk _ => exact hkey hk
  | value hk _ => exact hkey hk
  | other hk _ _ _ => exact hkey hk

/-- A field with its bytes. -/
structure SpelledField (Sub : ℕ → Type) (key : KeyKind) (value : ValueKind) where
  field : EntryField Sub key value
  bytes : List UInt8
  spells : field.Spells bytes

section
variable {B : Bounds} {ops : MessageOps Sub} {key : KeyKind} {value : ValueKind}

namespace SpelledField

def key? (f : SpelledField Sub key value) : Option (key.Carrier Sub) :=
  match f.field with
  | .key k => some k
  | .value _ | .other => none

def value? (f : SpelledField Sub key value) : Option value.Given :=
  match f.field with
  | .value given => some given
  | .key _ | .other => none

end SpelledField

/-- The bytes of an entry. -/
def payload (fields : List (SpelledField Sub key value)) : List UInt8 :=
  fields.flatMap SpelledField.bytes

/-- The last key, or the default of its type. -/
def lastKey (fields : List (SpelledField Sub key value)) : key.Carrier Sub :=
  (fields.filterMap SpelledField.key?).getLast?.getD key.temporary

/-- The occurrences of the value. -/
def givenValues (fields : List (SpelledField Sub key value)) : List value.Given :=
  fields.filterMap SpelledField.value?

private theorem filterMap_snoc {A B : Type} (g : A → Option B) (l : List A) (a : A) :
    (l ++ [a]).filterMap g = l.filterMap g ++ (g a).toList := by
  cases h : g a with
  | none => simp [h]
  | some b => simp [h]

/-- The last value is no value of its enumeration. -/
def Diverts (fields : List (SpelledField Sub key value)) : Prop :=
  ∃ given, (givenValues fields).getLast? = some given ∧ value.undeclared given = true

/-- The temporaries of an entry after some of its fields. -/
structure Entry.After (ops : MessageOps Sub) (fresh : Entry Sub key value)
    (fields : List (SpelledField Sub key value)) (entry : Entry Sub key value) : Prop where
  key : entry.key = (fields.filterMap SpelledField.key?).getLast?.getD fresh.key
  unknown : entry.unknown = true ↔ Diverts fields
  value : entry.unknown = false → value.GivesAll ops (givenValues fields) fresh.value entry.value

theorem Entry.After.start {fresh : Entry Sub key value} (h : fresh.unknown = false) :
    fresh.After ops [] fresh where
  key := rfl
  unknown := by
    rw [h]
    refine iff_of_false Bool.false_ne_true ?_
    rintro ⟨_, h, _⟩
    cases h
  value _ := .nil ops value fresh.value

/-- Messages are merged, whatever the fields. -/
private theorem Entry.After.merged {fresh entry : Entry Sub key value}
    {fields : List (SpelledField Sub key value)} (h : fresh.After ops fields entry)
    (hmessage : ∃ id boxed, value = .message id boxed) :
    value.GivesAll ops (givenValues fields) fresh.value entry.value := by
  refine h.value ?_
  obtain ⟨id, boxed, rfl⟩ := hmessage
  rw [← Bool.not_eq_true, h.unknown]
  rintro ⟨_, _, hu⟩
  cases hu

private theorem closedInvalid_eq {kind : ValueKind} {given : kind.Given}
    {old v : kind.Carrier Sub} (h : kind.Gives ops given old v) :
    kind.closedInvalid v = kind.undeclared given := by
  cases kind with
  | scalar t =>
    cases h
    rfl
  | string | bytes | message id boxed => rfl

/-- A field that holds no value leaves the value as it was. -/
private theorem Entry.After.no_value {fresh entry : Entry Sub key value}
    {pre : List (SpelledField Sub key value)} {f : SpelledField Sub key value}
    (h : fresh.After ops pre entry) (hf : f.value? = none) (k : key.Carrier Sub)
    (hk : k = ((pre ++ [f]).filterMap SpelledField.key?).getLast?.getD fresh.key) :
    fresh.After ops (pre ++ [f]) { entry with key := k } := by
  have hgiven : givenValues (pre ++ [f]) = givenValues pre := by
    unfold givenValues
    rw [filterMap_snoc, hf, Option.toList_none, List.append_nil]
  refine ⟨hk, ?_, ?_⟩
  · unfold Diverts
    rw [hgiven]
    exact h.unknown
  · rw [hgiven]
    exact h.value

private theorem length_le_append {A : Type} (xs ys : List A) : ys.length ≤ (xs ++ ys).length := by
  rw [List.length_append]
  exact Nat.le_add_left _ _

theorem readEntryField_takes {fresh : Entry Sub key value}
    {pre : List (SpelledField Sub key value)} (f : SpelledField Sub key value)
    {s : Parse (Entry Sub key value)} (h : fresh.After ops pre s.obj)
    (haccepts : ∀ given, f.value? = some given → value.Accepts B ops given s.obj.value) :
    Takes B (do readEntryField ops (← onReader readTag)) s f.bytes
      fun _ entry => fresh.After ops (pre ++ [f]) entry := by
  have hkeys := filterMap_snoc SpelledField.key? pre f
  have hgiven : givenValues (pre ++ [f]) = givenValues pre ++ f.value?.toList :=
    filterMap_snoc SpelledField.value? pre f
  have hno := h.no_value (f := f)
  obtain ⟨field, bytes, hspells⟩ := f
  cases hspells with
  | @key ks bs k hk hb =>
    have htag : Reads readTag ks ⟨1, key.value.wireType⟩ := Reads.tag hk
    refine Takes.reading htag fun t _ ho => ?_
    refine Takes.ite (fun _ => ?_) fun hn => absurd ⟨rfl, rfl⟩ hn
    refine Takes.get_bind (((Takes.readMapKey 1 hb).andThen fun v u _ ⟨hv, hu⟩ => ?_).le
      (length_le_append ks bs))
    refine Takes.modifying _ rfl rfl ?_
    rw [hv, hu, ho]
    refine hno rfl k ?_
    rw [hkeys]
    simp [SpelledField.key?]
  | @value ks bs given hk hb =>
    have htag : Reads readTag ks ⟨2, value.wireType⟩ := Reads.tag hk
    have hgiven : givenValues (pre ++ [⟨.value given, ks ++ bs, .value hk hb⟩]) =
        givenValues pre ++ [given] := hgiven
    have hkey := h.key
    rw [← List.append_nil (pre.filterMap SpelledField.key?)] at hkey
    have hdiverts : Diverts (pre ++ [(⟨.value given, ks ++ bs, .value hk hb⟩ :
        SpelledField Sub key value)]) ↔ value.undeclared given = true := by
      unfold Diverts
      rw [hgiven]
      simp
    refine Takes.reading htag fun t _ ho => ?_
    refine Takes.ite (fun hc => ?_) fun _ => ?_
    · cases hc.1
    refine Takes.ite (fun _ => ?_) fun hn => absurd ⟨rfl, rfl⟩ hn
    have ha : value.Accepts B ops given t.obj.value := by
      rw [ho]
      exact haccepts given rfl
    refine Takes.get_bind (((Takes.readMapMember 2 hb ha).andThen fun v u _ ⟨hv, hu⟩ => ?_).le
      (length_le_append ks bs))
    have hinvalid := closedInvalid_eq hv
    refine Takes.ite (fun hc => ?_) fun hc => ?_
    · refine Takes.modifying _ rfl rfl ?_
      rw [hu, ho]
      refine ⟨?_, ?_, nofun⟩
      · rw [hkeys]
        exact hkey
      · rw [hdiverts, ← hinvalid]
        exact iff_of_true rfl hc
    · refine Takes.modifying _ rfl rfl ?_
      rw [hu, ho]
      refine ⟨?_, ?_, fun _ => ?_⟩
      · rw [hkeys]
        exact hkey
      · rw [hdiverts, ← hinvalid]
        exact iff_of_false Bool.false_ne_true hc
      · rw [hgiven]
        refine ValueKind.GivesAll.snoc h.merged ?_
        rw [ho] at hv
        exact hv
  | @other ks bs tag d t hk hb hkey hvalue =>
    refine Takes.reading (Reads.tag hk) fun u _ ho => ?_
    refine Takes.ite (fun hc => absurd hc hkey) fun _ => ?_
    refine Takes.ite (fun hc => absurd hc hvalue) fun _ => ?_
    refine ((Takes.skipField hb).le (length_le_append ks bs)).mono fun _ entry he => ?_
    rw [he, ho]
    refine hno rfl s.obj.key ?_
    rw [hkeys, h.key]
    simp [SpelledField.key?]

/-- Every message among the values parses into what the values before it gave. -/
def Acceptable (B : Bounds) (ops : MessageOps Sub) (fields : List (SpelledField Sub key value))
    (init : value.Carrier Sub) : Prop :=
  ∀ pre f given, pre ++ [f] <+: fields → f.value? = some given → ∀ v,
    value.GivesAll ops (givenValues pre) init v → value.Accepts B ops given v

theorem parseEntry_takes {fresh : Entry Sub key value} (hfresh : fresh.unknown = false)
    {fields : List (SpelledField Sub key value)} (hfields : Acceptable B ops fields fresh.value)
    {t : Parse (Entry Sub key value)} (hobj : t.obj = fresh)
    (hrest : t.reader.rest = payload fields) (hsteady : t.reader.Steady) :
    Takes B (parseEntry ops) t (payload fields) fun _ entry => fresh.After ops fields entry := by
  have haccepts (pre : List (SpelledField Sub key value)) (f : SpelledField Sub key value)
      (entry : Entry Sub key value) (hpre : pre ++ [f] <+: fields)
      (hentry : fresh.After ops pre entry) (given : value.Given) (hgiven : f.value? = some given) :
      value.Accepts B ops given entry.value := by
    cases value with
    | message id boxed => exact hfields pre f given hpre hgiven _ (hentry.merged ⟨id, boxed, rfl⟩)
    | scalar t | string | bytes => trivial
  have hstart : fresh.After ops [] t.obj := by
    rw [hobj]
    exact .start hfresh
  rw [← hrest]
  exact Takes.forEachField (J := fun pre o => fresh.After ops pre o)
    (fun pre f u hpre hJ => readEntryField_takes f hJ (haccepts pre f u.obj hpre hJ))
    (fun f _ => f.spells.ne_nil) hrest hsteady hstart

variable {maxBuckets : Usize}

/-- What an entry of these fields makes of the map and of the unknown fields. -/
structure Inserts (ops : MessageOps Sub) (preserve : Bool) (f : ℕ)
    (fields : List (SpelledField Sub key value)) (init : value.Carrier Sub)
    (old new : Slot Sub (.map key value maxBuckets)) : Prop where
  diverted : Diverts fields → new.value = old.value ∧ new.unknown.val =
    old.unknown.val ++ if preserve then (Tree.bytes f (payload fields)).encode else []
  inserted : ¬Diverts fields → new.unknown = old.unknown ∧
    ∃ v, value.GivesAll ops (givenValues fields) init v ∧
      ∀ k, new.value.val.lookup k =
        if MapKey.equal (lastKey fields) k then some v else old.value.val.lookup k
  size_le : new.value.val.size ≤ old.value.val.size + 1

/-- There is room for an entry of these fields, wherever it goes. -/
structure Slot.Fits (B : Bounds) (preserve : Bool) (f : ℕ) (fields : List (SpelledField Sub key value))
    (slot : Slot Sub (.map key value maxBuckets)) : Prop where
  value (hn : ¬Diverts fields) (h : B.room) :
    HashMap.Fits maxBuckets.val (slot.value.val.size + 1)
  unknown (hd : Diverts fields) (hp : preserve = true) :
    B.Stores (slot.unknown.val.length + (Tree.bytes f (payload fields)).encode.length)

theorem insertEntry_exits (copier : Copier Sub) (entry : Entry Sub key value)
    (b : Bound {m : HashMap maxBuckets (key.Carrier Sub) (value.Carrier Sub) // m.WellFormed}) :
    Exits (insertEntry copier entry b)
      (fun _ b' => b.ctx.Spent b'.ctx ∧ b'.obj.val.size ≤ b.obj.val.size + 1 ∧
        HashMap.Assigned b.obj.val b'.obj.val entry.key entry.value)
      (fun e _ => e.IsLimit ∧
        ¬(b.ctx.AlwaysGrants ∧ HashMap.Fits maxBuckets.val (b.obj.val.size + 1))) := by
  let _ := valueCopies copier key.value
  let _ := valueCopies copier value
  have hexits := HashMap.insertOrAssign_moved_exits (s := { ctx := b.ctx, obj := b.obj.val })
    maxBuckets.2 b.obj.2 entry.key entry.value
  unfold insertEntry
  dsimp only
  split
  · next h =>
    obtain ⟨hspent, _, hsize, hassigned⟩ := Exits.ok hexits h
    exact ⟨hspent, hsize, hassigned⟩
  · next h => exact (Exits.error hexits h).2.2

private theorem insertEntry_takes (ops : MessageOps Sub) {c : ℕ}
    {s : Parse (Slot Sub (.map key value maxBuckets))} (entry : Entry Sub key value)
    (hfits : B.room → HashMap.Fits maxBuckets.val (s.obj.value.val.size + 1)) :
    Takes B (zoom Slot.valueLens (Protocyte.onBound (insertEntry ops.copier entry)) :
        ParseM (Slot Sub (.map key value maxBuckets)) Unit) s [] (fun _ slot =>
      slot.unknown = s.obj.unknown ∧ slot.value.val.size ≤ s.obj.value.val.size + 1 ∧
        ∀ k, slot.value.val.lookup k =
          if MapKey.equal entry.key k then some entry.value else s.obj.value.val.lookup k) c := by
  refine (Takes.zoom _ (Takes.onBound
    (Q := fun _ m => m.val.size ≤ s.obj.value.val.size + 1 ∧
      HashMap.Assigned s.obj.value.val m.val entry.key entry.value)
    (insertEntry_exits ops.copier entry { ctx := s.ctx, obj := s.obj.value })
    fun hs => ⟨hs.grants, hfits hs.room⟩)).mono ?_
  rintro _ slot ⟨m, ⟨hsize, hm⟩, rfl⟩
  exact ⟨rfl, hsize, hm.lookup s.obj.value.2.distinct m.2.distinct⟩

private theorem Entry.After.inserts {fields : List (SpelledField Sub key value)} {f : ℕ}
    {preserve : Bool} {init : value.Carrier Sub} {entry : Entry Sub key value}
    {old new : Slot Sub (.map key value maxBuckets)}
    (h : ({ key := key.temporary, value := init } : Entry Sub key value).After ops fields entry)
    (hn : ¬entry.unknown = true) (hunknown : new.unknown = old.unknown)
    (hsize : new.value.val.size ≤ old.value.val.size + 1)
    (hlookup : ∀ k, new.value.val.lookup k =
      if MapKey.equal entry.key k then some entry.value else old.value.val.lookup k) :
    Inserts ops preserve f fields init old new where
  diverted hd := absurd (h.unknown.mpr hd) hn
  inserted _ := by
    rw [h.key] at hlookup
    exact ⟨hunknown, entry.value, h.value (Bool.not_eq_true _ ▸ hn), hlookup⟩
  size_le := hsize

private theorem readNormalEntry_takes {preserve : Bool} {f : ℕ}
    {fields : List (SpelledField Sub key value)} {bs : List UInt8}
    (hd : Delimited bs (payload fields)) {init : value.Carrier Sub}
    (hfields : Acceptable B ops fields init)
    (hpreserve : Diverts fields → preserve = false)
    {s : Parse (Slot Sub (.map key value maxBuckets))}
    (hfits : ¬Diverts fields → B.room →
      HashMap.Fits maxBuckets.val (s.obj.value.val.size + 1)) :
    Takes B (readNormalEntry ops f { key := key.temporary, value := init }) s bs fun _ slot =>
      Inserts ops preserve f fields init s.obj slot := by
  obtain ⟨ls, hls, rfl⟩ := hd
  refine Takes.delimited ?_
  have hopen : Takes (B.holding (payload fields)) (openNestedMessage f : ParseM _ ℕ) s ls
      fun a o => a = (payload fields).length ∧ o = s.obj :=
    Takes.openNestedMessage f hls fun hroom => hroom.2.1
  refine hopen.bind fun size t _ ⟨hsize, ho⟩ => ?_
  rw [hsize]
  refine (Takes.nestedMessage fun u hu hrest hsteady => ?_).andThen
    (Q := fun p slot => ({ key := key.temporary, value := init } :
      Entry Sub key value).After ops fields p.2 ∧ slot = t.obj) ?_
  · have h := Takes.inTemporary (O := Slot Sub (.map key value maxBuckets)) (s := u)
      { key := key.temporary, value := init }
      ((parseEntry_takes rfl hfields rfl hrest hsteady).held (payload fields))
    rw [hu] at h
    exact h
  intro ⟨_, entry⟩ u _ ⟨hentry, hu⟩
  have hobj : u.obj = s.obj := hu.trans ho
  refine Takes.ite (fun hc => .pure ?_) fun hc => ?_
  · have hdiverts := hentry.unknown.mp hc
    rw [hobj, hpreserve hdiverts]
    exact ⟨fun _ => ⟨rfl, (List.append_nil _).symm⟩, fun hn => absurd hdiverts hn,
      Nat.le_succ _⟩
  · rw [← hobj] at hfits ⊢
    have hn : ¬Diverts fields := fun h => hc (hentry.unknown.mpr h)
    have hheld (hroom : (B.holding (payload fields)).room) := hfits hn hroom.1
    exact (insertEntry_takes ops entry hheld).mono
      fun _ slot ⟨hunknown, hsize, hlookup⟩ => hentry.inserts hc hunknown hsize hlookup

private theorem readStagedEntry_takes {f : ℕ} (hf : 0 < f ∧ f ≤ maxNumber)
    {fields : List (SpelledField Sub key value)} {bs : List UInt8}
    (hd : Delimited bs (payload fields)) {init : value.Carrier Sub}
    (hfields : Acceptable B ops fields init)
    {s : Parse (Slot Sub (.map key value maxBuckets))} (hfits : s.obj.Fits B true f fields) :
    Takes B (readStagedEntry ops f { key := key.temporary, value := init }) s bs fun _ slot =>
      Inserts ops true f fields init s.obj slot := by
  obtain ⟨ls, hls, rfl⟩ := hd
  refine Takes.le (c := (payload fields).length) (Takes.delimited ?_) (length_le_append ls _)
  refine Takes.reading (Reads.readSize hls) fun t _ ho => ?_
  refine Takes.get_bind (Takes.ite (fun hlong => Takes.failField f (by decide) fun hs => ?_)
    fun _ => ?_)
  · rw [hs.limits] at hlong
    exact absurd hs.room.2.1 (Nat.not_le_of_lt hlong)
  refine Takes.canRead ((Takes.pushRecursion f).before fun _ u _ hu => ?_)
  refine Takes.andThen (Q := fun p slot => p.1 = payload fields ∧
    ({ key := key.temporary, value := init } : Entry Sub key value).After ops fields p.2 ∧
      slot = u.obj) (Takes.releasing ?_) ?_
  · refine Takes.get_bind ((Takes.takeBlock _).before fun _ v _ hv => ?_)
    refine (Takes.onReader (Reads.readBuffer rfl)).counting fun b w _ ⟨hb, hw⟩ => ?_
    rw [hb]
    have hstaged : ({ data := payload fields, baseOffset := u.reader.position } :
        SliceReader).rest = payload fields := rfl
    refine (Takes.staged (B := B.holding (payload fields)) (Q := fun p slot =>
      ({ key := key.temporary, value := init } : Entry Sub key value).After ops fields p.2 ∧
        slot = w.obj) hstaged (fun hs => hs.room.2) fun x hx hrest hsteady => ?_).charge
          (d := 0) (Nat.le_of_eq (Nat.add_zero _)) ?_
    · have h := Takes.inTemporary (O := Slot Sub (.map key value maxBuckets)) (s := x)
        { key := key.temporary, value := init }
        ((parseEntry_takes rfl hfields rfl hrest hsteady).held (payload fields))
      rw [hx] at h
      exact h
    · intro ⟨_, entry⟩ x _ ⟨hentry, hx⟩
      exact .pure (c := 0) ⟨rfl, hentry, by rw [hx, hw, hv]⟩
  intro ⟨stagedEntry, entry⟩ v _ ⟨hstaged, hentry, hv⟩
  have hobj : v.obj = s.obj := by rw [hv, hu, ho]
  rw [← hobj] at hfits ⊢
  refine Takes.ite (fun hc => ?_) fun hc => ?_
  · have hdiverts := hentry.unknown.mp hc
    dsimp only at hstaged
    rw [hstaged]
    have happends := MutableUnknownFieldSet.addLengthDelimited_appends hf
      (le_usizeMax_of_varint hls)
    have hstores := happends { ctx := v.ctx, obj := storageLens.get v.obj.unknown }
    have hroom : (B.holding (payload fields)).Stores _ := fun hroom =>
      hfits.unknown hdiverts rfl hroom.1
    refine (Takes.zoom _ (Takes.onBound (Q := fun _ storage => storage.items =
      v.obj.unknown.val ++ (Tree.bytes f (payload fields)).encode) hstores
        fun hs => hs.hasRoom hroom)).mono ?_
    rintro _ slot ⟨storage, hstorage, rfl⟩
    exact ⟨fun _ => ⟨rfl, hstorage⟩, fun hn => absurd hdiverts hn, Nat.le_succ _⟩
  · have hn : ¬Diverts fields := fun h => hc (hentry.unknown.mpr h)
    have hheld (hroom : (B.holding (payload fields)).room) := hfits.value hn hroom.1
    exact (insertEntry_takes ops entry hheld).mono
      fun _ slot ⟨hunknown, hsize, hlookup⟩ => hentry.inserts hc hunknown hsize hlookup

private theorem isClosed_of_closedInvalid {t : ScalarType} {v : t.Value}
    (h : t.closedInvalid v = true) : t.isClosed = true := by
  cases t with
  | closedEnum values => rfl
  | _ => cases h

theorem readMap_takes (preserve : Bool) {f : ℕ} (hf : 0 < f ∧ f ≤ maxNumber)
    {fields : List (SpelledField Sub key value)} {bs : List UInt8}
    (hd : Delimited bs (payload fields)) {init : value.Carrier Sub}
    (hfields : Acceptable B ops fields init) (hinit : value.temporary ops = .ok init)
    {s : Parse (Slot Sub (.map key value maxBuckets))} (hfits : s.obj.Fits B preserve f fields) :
    Takes B (readMap ops preserve .len f) s bs
      (fun _ slot => Inserts ops preserve f fields init s.obj slot) (1 + bs.length) := by
  refine (Takes.onReader (Reads.expectWireType .len f)).before fun _ t _ ⟨_, ht⟩ => ?_
  refine (Takes.consume _ _ (Nat.le_refl 1)).charge (Nat.le_refl _) fun _ u _ hu => ?_
  rw [hinit]
  have hobj : u.obj = s.obj := hu.trans ht
  rw [← hobj] at hfits ⊢
  refine Takes.ite (fun hc => ?_) fun hc => ?_
  · rw [hc.2] at hfits ⊢
    exact readStagedEntry_takes hf hd hfields hfits
  · refine readNormalEntry_takes hd hfields (fun ⟨given, _, hundeclared⟩ => ?_) hfits.value
    have hclosed : value.isClosed = true := by
      cases value with
      | scalar t => exact isClosed_of_closedInvalid hundeclared
      | string | bytes | message id boxed => cases hundeclared
    rw [← Bool.not_eq_true]
    exact fun hp => hc ⟨hclosed, hp⟩

end

end Protocyte
