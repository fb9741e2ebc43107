import Protocyte.Codec.Parts
import Protocyte.Codec.Size

/-! Copying messages. A copy is built in a message of its own in the destination's context, and a
failure discards it; nothing but allocations happens to the context. -/
namespace Protocyte
open Foundation.Computation

variable {Sub : ℕ → Type} {α β : Type}

/-- `x` only allocates, and fails for other reasons than nesting; `Q` holds of its result. -/
def Allocates (x : EStateM Error Context α) (Q : α → Prop) : Prop := ∀ ctx, Exits (x ctx)
  (fun a ctx' => ctx.Spent ctx' ∧ Q a)
  (fun e ctx' => ctx.Spent ctx' ∧ e.code ≠ .diverged ∧ e.code ≠ .recursionLimit)

namespace Allocates

variable {x : EStateM Error Context α} {Q R : α → Prop}

theorem pure {a : α} (h : Q a) : Allocates (Pure.pure a) Q := fun ctx => ⟨.refl ctx, h⟩

theorem throw {e : Error} (h : e.code ≠ .diverged ∧ e.code ≠ .recursionLimit) :
    Allocates (MonadExcept.throw e : EStateM Error Context α) Q := fun ctx => ⟨.refl ctx, h⟩

theorem bind {f : α → EStateM Error Context β} {R : β → Prop} (hx : Allocates x Q)
    (hf : ∀ a, Q a → Allocates (f a) R) : Allocates (x >>= f) R := by
  intro ctx
  refine Exits.bind ((hx ctx).mono (fun _ _ h => h) fun _ _ h => h) ?_
  intro a c hc
  refine (hf a hc.2 c).mono ?_ ?_
  · exact fun _ _ h => ⟨hc.1.trans h.1, h.2⟩
  · exact fun _ _ h => ⟨hc.1.trans h.1, h.2⟩

theorem mono (hx : Allocates x Q) (h : ∀ a, Q a → R a) : Allocates x R := fun ctx =>
  (hx ctx).mono (fun a _ hq => ⟨hq.1, h a hq.2⟩) fun _ _ hq => hq

/-- What a success is known to give. -/
theorem of_ok (hx : Allocates x Q) (h : ∀ ctx a ctx', x ctx = .ok a ctx' → R a) :
    Allocates x R := fun ctx => Exits.intro
  (fun a c hr => ⟨((hx ctx).ok hr).1, h ctx a c hr⟩) fun _ _ hr => (hx ctx).error hr

theorem withField (n : ℕ) (hx : Allocates x Q) : Allocates (withField n x) Q := by
  intro ctx
  unfold Protocyte.withField
  cases h : x ctx with
  | ok a c => exact (hx ctx).ok h
  | error e c =>
    have he := (hx ctx).error h
    exact ⟨he.1, he.2⟩

end Allocates

theorem takeBlock_allocates (count : ℕ) : Allocates (takeBlock count) fun _ => True := by
  intro ctx
  unfold takeBlock
  split
  · exact ⟨.refl ctx, trivial⟩
  · cases hg : ctx.grants 0 with
    | true =>
      simp only [Context.allocate, hg, if_true]
      exact ⟨ctx.spent_allocate, trivial⟩
    | false =>
      simp only [Context.allocate, hg, Bool.false_eq_true, if_false]
      exact ⟨ctx.spent_allocate, by decide, by decide⟩

theorem grow_allocates (storage : Storage) (reserved : Bool) (count : ℕ) :
    Allocates (Items.grow storage reserved count) fun _ => True := by
  cases storage with
  | array max fixed => exact .pure trivial
  | vector maxSize =>
    cases reserved with
    | false => exact takeBlock_allocates count
    | true => exact .pure trivial

/-- The `copy_from` of the nested messages, into a message that has just been constructed. -/
structure Copier (Sub : ℕ → Type) where
  copyFrom : (id : ℕ) → Sub id → EStateM Error Context (Sub id)
  allocates (id : ℕ) (source : Sub id) : Allocates (copyFrom id source) fun _ => True

/-- `assign` of a `String`, when `text`, or a `Bytes`. -/
def assignBytes (text : Bool) (view : Bytes) : EStateM Error Context Bytes := do
  if view.val.length > (← get).limits.maxStringBytes then
    throw { code := .sizeLimit }
  else if text ∧ !validateUtf8 view.val then
    throw { code := .invalidUtf8 }
  else
    takeBlock view.val.length
    return view

theorem assignBytes_allocates (text : Bool) (view : Bytes) :
    Allocates (assignBytes text view) (· = view) := by
  intro ctx
  rw [assignBytes, bind_of_ok (get_apply ctx)]
  refine Exits.ite (fun _ => ⟨.refl ctx, by decide, by decide⟩) fun _ => ?_
  refine Exits.ite (fun _ => ⟨.refl ctx, by decide, by decide⟩) fun _ => ?_
  have hb : Allocates (takeBlock view.val.length >>= fun _ => pure view) (· = view) :=
    (takeBlock_allocates _).bind fun _ _ => .pure rfl
  exact hb ctx

section
variable (copier : Copier Sub)

/-- `copy_value` -/
def ValueKind.copyValue : (kind : ValueKind) → kind.Carrier Sub →
    EStateM Error Context (kind.Carrier Sub)
  | .scalar _, v => return v
  | .string, v => assignBytes true v
  | .bytes, v => assignBytes false v
  | .message id _, v => copier.copyFrom id v

/-- The setter of a singular field, given the value of the other message's field. A field that is
boxed gets its box before the message is copied. -/
def SingularKind.copySingular : (kind : SingularKind) → kind.Carrier Sub →
    EStateM Error Context (kind.Carrier Sub)
  | .value (.scalar t), v =>
    if t.closedInvalid v then throw { code := .invalidArgument } else return v
  | .value .string, v => assignBytes true v
  | .value .bytes, v => assignBytes false v
  | .value (.message id boxed), v => do
    takeBlock (if boxed then 1 else 0)
    copier.copyFrom id v
  | .byteArray .., v => return v

def copyItems (copy : α → EStateM Error Context α) : (items : List α) →
    EStateM Error Context {copies : List α // copies.length = items.length}
  | [] => return ⟨[], rfl⟩
  | item :: items => do
    let copied ← copy item
    let copies ← copyItems copy items
    return ⟨copied :: copies.val, by simp [copies.2]⟩

/-- The keys and values of a map are copied one by one. -/
abbrev valueCopies (kind : ValueKind) : CopyValue (kind.Carrier Sub) :=
  { copyValue := kind.copyValue copier }

/-- A copy of a nested message keeps `P`. -/
def Copier.Keeps (P : (id : ℕ) → Sub id → Prop) : Prop :=
  ∀ id v ctx w ctx', copier.copyFrom id v ctx = .ok w ctx' → P id v → P id w

variable {copier} in
theorem ValueKind.copyValue_allocates {P : (id : ℕ) → Sub id → Prop} (hP : copier.Keeps P)
    (kind : ValueKind) (v : kind.Carrier Sub) :
    Allocates (kind.copyValue copier v) fun w => kind.Nested P v → kind.Nested P w := by
  cases kind with
  | scalar t => exact .pure fun _ => trivial
  | string => exact (assignBytes_allocates true v).mono fun _ _ _ => trivial
  | bytes => exact (assignBytes_allocates false v).mono fun _ _ _ => trivial
  | message id boxed => exact (copier.allocates id v).of_ok fun c w c' h => hP id v c w c' h

variable {copier} in
theorem SingularKind.copySingular_allocates {P : (id : ℕ) → Sub id → Prop} (hP : copier.Keeps P)
    (kind : SingularKind) (v : kind.Carrier Sub) :
    Allocates (kind.copySingular copier v) fun w => kind.Nested P v → kind.Nested P w := by
  cases kind with
  | byteArray max fixed => exact .pure fun _ => trivial
  | value kind =>
    cases kind with
    | scalar t =>
      change Allocates (if t.closedInvalid v = true then _ else _) _
      by_cases h : t.closedInvalid v = true
      · rw [if_pos h]
        exact .throw (by decide)
      · rw [if_neg h]
        exact .pure fun _ => trivial
    | string => exact (assignBytes_allocates true v).mono fun _ _ _ => trivial
    | bytes => exact (assignBytes_allocates false v).mono fun _ _ _ => trivial
    | message id boxed =>
      refine (takeBlock_allocates _).bind fun _ _ => ?_
      exact (copier.allocates id v).of_ok fun c w c' h => hP id v c w c' h

theorem copyItems_allocates {copy : α → EStateM Error Context α} {R : α → α → Prop}
    (h : ∀ a, Allocates (copy a) (R a)) (items : List α) :
    Allocates (copyItems copy items) fun copies => ∀ b ∈ copies.val, ∃ a ∈ items, R a b := by
  induction items with
  | nil => exact .pure nofun
  | cons item items ih =>
    refine (h item).bind fun b hb => ih.bind fun copies hc => .pure ?_
    intro c hm
    rcases List.mem_cons.mp hm with rfl | hm
    · exact ⟨item, List.mem_cons_self, hb⟩
    · obtain ⟨a, ha, hr⟩ := hc c hm
      exact ⟨a, List.mem_cons_of_mem _ ha, hr⟩

/-- `Map::copy_from` into an empty map. -/
theorem copyMap_exits {P : (id : ℕ) → Sub id → Prop} (hP : copier.Keeps P) {maxBuckets : Usize}
    {key : KeyKind} {value : ValueKind}
    (m : HashMap maxBuckets (key.Carrier Sub) (value.Carrier Sub)) (ctx : Context) :
    let _ := valueCopies copier key.value
    let _ := valueCopies copier value
    HashMap.MapRuns (fun e => e.code ≠ .diverged ∧ e.code ≠ .recursionLimit)
      (HashMap.copyFrom m false) { ctx, obj := HashMap.empty }
      (fun m' => ∀ f ∈ m'.entries, ∃ e ∈ m.entries, value.Nested P e.2 → value.Nested P f.2) := by
  intro ik iv
  refine HashMap.copyFrom_copies (R := fun v w => value.Nested P v → value.Nested P w)
    maxBuckets.2 ?_ HashMap.wellFormed_empty m
  refine ⟨fun he => ⟨he.not_diverged, he.not_recursionLimit⟩, fun k c _ => ?_, fun v c _ => ?_⟩
  · exact (key.value.copyValue_allocates hP k c).mono (fun _ _ h => h.1) fun _ _ h => h
  · exact value.copyValue_allocates hP v c

def copyMap {maxBuckets : Usize} {key : KeyKind} {value : ValueKind}
    (m : HashMap maxBuckets (key.Carrier Sub) (value.Carrier Sub)) :
    EStateM Error Context
      {m : HashMap maxBuckets (key.Carrier Sub) (value.Carrier Sub) // m.WellFormed} := fun ctx =>
  let _ := valueCopies copier key.value
  let _ := valueCopies copier value
  match h : HashMap.copyFrom m false { ctx, obj := HashMap.empty } with
  | .ok _ s => .ok ⟨s.obj, (Exits.ok (copyMap_exits copier (P := fun _ _ => True)
      (fun _ _ _ _ _ _ => id) m ctx) h).2.1⟩ s.ctx
  | .error e s => .error e s.ctx

variable {copier} in
theorem copyMap_allocates {P : (id : ℕ) → Sub id → Prop} (hP : copier.Keeps P)
    {maxBuckets : Usize} {key : KeyKind} {value : ValueKind}
    (m : HashMap maxBuckets (key.Carrier Sub) (value.Carrier Sub)) :
    Allocates (copyMap copier m) fun m' =>
      ∀ f ∈ m'.val.entries, ∃ e ∈ m.entries, value.Nested P e.2 → value.Nested P f.2 := by
  intro ctx
  have hc := copyMap_exits copier hP m ctx
  unfold copyMap
  dsimp only at hc ⊢
  split
  · next s hs => exact ⟨(hc.ok hs).1, (hc.ok hs).2.2⟩
  · next e s hs => exact ⟨(hc.error hs).1, (hc.error hs).2.2⟩

/-- The member of a fresh message gets the value of the other message's member. -/
def FieldState.copyFrom (number : ℕ) : (kind : FieldKind) → FieldState Sub kind →
    EStateM Error Context (FieldState Sub kind)
  | .implicit kind _, v => withField number (kind.copySingular copier v)
  | .explicit .., none => return none
  | .explicit kind _ _, some v => withField number (do return some (← kind.copySingular copier v))
  | .repeated kind _ storage, items => withField number do
    Items.grow storage false items.val.length
    let copies ← copyItems (kind.copyValue copier) items.val
    return ⟨copies.val, by rw [copies.2]; exact items.2⟩
  | .map .., m => withField number (copyMap copier m.val)

variable {copier} in
theorem FieldState.copyFrom_allocates {P : (id : ℕ) → Sub id → Prop} (hP : copier.Keeps P)
    (number : ℕ) (kind : FieldKind) (v : FieldState Sub kind) :
    Allocates (FieldState.copyFrom copier number kind v) fun w =>
      FieldState.All (fun k u => k.Nested P u) kind v →
        FieldState.All (fun k u => k.Nested P u) kind w := by
  cases kind with
  | implicit kind h =>
    refine ((kind.copySingular_allocates hP v).mono fun w hw => ?_).withField number
    cases kind with
    | value kind => exact hw
    | byteArray max fixed => exact fun _ => trivial
  | explicit kind required oneof =>
    cases v with
    | none => exact .pure id
    | some v =>
      refine ((kind.copySingular_allocates hP v).bind fun w hw => .pure ?_).withField number
      cases kind with
      | value kind =>
        intro hv u hu
        cases hu
        exact hw (hv v rfl)
      | byteArray max fixed => exact fun _ => trivial
  | «repeated» kind packed storage =>
    have hi := copyItems_allocates (fun v => kind.copyValue_allocates hP v) v.val
    refine Allocates.withField number <| (grow_allocates _ _ _).bind fun _ _ =>
      hi.bind fun copies hc => .pure ?_
    intro hv b hb
    obtain ⟨a, ha, hr⟩ := hc b hb
    exact hr (hv a ha)
  | map key value maxBuckets =>
    refine ((copyMap_allocates hP v.val).mono fun m' hm hv f hf => ?_).withField number
    obtain ⟨e, he, hr⟩ := hm f hf
    refine ⟨?_, hr (hv e he).2⟩
    cases key with
    | scalar t h | string => trivial

/-- The copies of the fields, stored one by one. -/
def MessageData.copyFieldsFrom {M : MessageModel} (source : MessageData M Sub) :
    List M.Index → MessageData M Sub → EStateM Error Context (MessageData M Sub)
  | [], m => return m
  | i :: rest, m => do
    let v ← FieldState.copyFrom copier (M.number i) _ (source.fields i)
    copyFieldsFrom source rest (m.setField i v)

end

/-- Fields outside oneofs come first; the switches over the oneofs follow. -/
def MessageModel.copyOrder (M : MessageModel) : List M.Index :=
  (List.finRange M.fields.length).filter (fun i => (M.kind i).oneof = none) ++
    ((List.finRange M.fields.length).filter fun i => (M.kind i).oneof ≠ none).insertionSort
      fun i j => (M.kind i).oneof.getD 0 ≤ (M.kind j).oneof.getD 0

/-- `UnknownFieldStorage::copy_from` into an empty storage. -/
def copyStorage (source : Bytes) : EStateM Error Context Bytes := fun ctx =>
  match copyUnknownFields source.val ctx.limits.maxUnknownFieldBytes { ctx, obj := Vec.empty } with
  | .ok _ s => .ok ⟨s.obj.items, s.obj.size_le⟩ s.ctx
  | .error e s => .error e s.ctx

/-- `copy_from_in_place_` of a message that has just been constructed; `preserve` is
`preserve_unknown_fields_v`. -/
def MessageData.copyFromInPlace (copier : Copier Sub) (preserve : Bool) {M : MessageModel}
    (source : MessageData M Sub) : EStateM Error Context (MessageData M Sub) := do
  let m ← source.copyFieldsFrom copier M.copyOrder .empty
  if preserve then
    return { m with unknownFields := ← copyStorage source.unknownFields }
  else
    return m

def FieldKind.isMap : FieldKind → Bool
  | map .. => true
  | implicit .. | explicit .. | «repeated» .. => false

/-- `P` holds of the messages of a field; the messages in a map have its entries around them. -/
abbrev FieldState.Nests (P : Bool → (id : ℕ) → Sub id → Prop) (kind : FieldKind)
    (v : FieldState Sub kind) : Prop :=
  FieldState.All (fun k u => k.Nested (P kind.isMap) u) kind v

namespace MessageData

variable {M : MessageModel} {copier : Copier Sub}

/-- `P` holds of the nested messages, those in maps apart, and `U` of the storage of the unknown
fields. -/
structure Holds (P : Bool → (id : ℕ) → Sub id → Prop) (U : List UInt8 → Prop)
    (m : MessageData M Sub) : Prop where
  nested (i : M.Index) : FieldState.Nests P _ (m.fields i)
  stored : U m.unknownFields.val

theorem holds_setField {P : Bool → (id : ℕ) → Sub id → Prop} {U : List UInt8 → Prop}
    {m : MessageData M Sub} (h : m.Holds P U) {i : M.Index} {v : FieldState Sub (M.kind i)}
    (hv : FieldState.Nests P _ v) : (m.setField i v).Holds P U := by
  refine ⟨fun j => ?_, h.stored⟩
  have hc : ∀ (kind : FieldKind) (w : FieldState Sub kind),
      FieldState.Nests P kind w → FieldState.Nests P kind (FieldState.cleared kind w) := by
    intro kind w hw
    cases kind with
    | explicit kind required oneof =>
      cases kind with
      | value kind =>
        intro u hu
        cases hu
      | byteArray max fixed => trivial
    | implicit kind h | «repeated» kind packed storage | map key value maxBuckets => exact hw
  simp only [setField]
  by_cases hj : j = i
  · subst hj
    rw [dif_pos rfl]
    exact hv
  · rw [dif_neg hj]
    split
    · exact hc _ _ (h.nested j)
    · exact h.nested j

theorem holds_empty {P : Bool → (id : ℕ) → Sub id → Prop} {U : List UInt8 → Prop} (h : U []) :
    (empty : MessageData M Sub).Holds P U := by
  refine ⟨fun i => ?_, h⟩
  have hd : ∀ kind : FieldKind,
      FieldState.Nests P kind (FieldState.default kind : FieldState Sub kind) := by
    intro kind
    cases kind with
    | implicit kind h =>
      cases kind with
      | value kind => exact implicit_nested (.value kind) h _
      | byteArray max fixed => trivial
    | explicit kind required oneof =>
      cases kind with
      | value kind =>
        intro u hu
        cases hu
      | byteArray max fixed => trivial
    | «repeated» kind packed storage | map key value maxBuckets => exact nofun
  exact hd (M.kind i)

theorem copyFieldsFrom_allocates {P : Bool → (id : ℕ) → Sub id → Prop}
    (hP : ∀ inMap, copier.Keeps (P inMap)) {U : List UInt8 → Prop}
    (source : MessageData M Sub) (indices : List M.Index)
    (m : MessageData M Sub) : Allocates (source.copyFieldsFrom copier indices m) fun m' =>
      (∀ i, FieldState.Nests P _ (source.fields i)) → m.Holds P U → m'.Holds P U := by
  induction indices generalizing m with
  | nil => exact .pure fun _ hm => hm
  | cons i rest ih =>
    refine (FieldState.copyFrom_allocates (hP (M.kind i).isMap) _ _ _).bind fun v hv => ?_
    exact (ih (m.setField i v)).mono fun m' hm' hs hm => hm' hs (holds_setField hm (hv (hs i)))

theorem copyStorage_allocates (source : Bytes) :
    Allocates (copyStorage source) fun b => b.val = source.val := by
  intro ctx
  have hc : Exits (copyUnknownFields source.val ctx.limits.maxUnknownFieldBytes
      { ctx, obj := Vec.empty }) (fun _ s => ctx.Spent s.ctx ∧ s.obj.items = source.val)
      (fun e s => ctx.Spent s.ctx ∧ e.code ≠ .diverged ∧ e.code ≠ .recursionLimit) := by
    unfold copyUnknownFields
    split
    · exact ⟨.refl ctx, by decide, by decide⟩
    refine (Vec.assign_exits source.val _).mono (fun _ _ h => h) fun e s h => ⟨h.1, ?_⟩
    rcases h.2.2 with ⟨he, -⟩ | ⟨he, -⟩
    · rw [he]
      decide
    · rw [he]
      decide
  unfold copyStorage
  cases h : copyUnknownFields source.val ctx.limits.maxUnknownFieldBytes
      { ctx, obj := Vec.empty } with
  | ok u s => exact hc.ok h
  | error e s => exact hc.error h

/-- A copy keeps what holds of the nested messages and of the storages. -/
theorem copyFromInPlace_allocates {P : Bool → (id : ℕ) → Sub id → Prop}
    (hP : ∀ inMap, copier.Keeps (P inMap)) {U : List UInt8 → Prop} (hU : U []) (preserve : Bool)
    (source : MessageData M Sub) : Allocates (source.copyFromInPlace copier preserve) fun m' =>
      source.Holds P U → m'.Holds P U := by
  refine (copyFieldsFrom_allocates hP (U := U) source M.copyOrder .empty).bind fun m hm => ?_
  cases preserve with
  | false => exact .pure fun hs => hm hs.nested (holds_empty hU)
  | true =>
    refine (copyStorage_allocates _).bind fun bytes hb => .pure fun hs => ⟨?_, ?_⟩
    · exact (hm hs.nested (holds_empty hU)).nested
    · change U bytes.val
      rw [hb]
      exact hs.stored

end MessageData

namespace Message

/-- The `copy_from` of the messages of every level. -/
def copier (S : Schema) (preserve : Bool) : (levels : ℕ) → Copier (Message S levels)
  | 0 => { copyFrom := fun _ source => source.elim, allocates := fun _ source => source.elim }
  | levels + 1 =>
    { copyFrom := fun _ source =>
        MessageData.copyFromInPlace (copier S preserve levels) preserve source
      allocates := fun _ source => (MessageData.copyFromInPlace_allocates
        (P := fun _ _ _ => True) (fun _ _ _ _ _ _ _ => id) (U := fun _ => True) trivial preserve
        source).mono fun _ _ => trivial }

end Message

end Protocyte
