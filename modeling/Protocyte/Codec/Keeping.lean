import Protocyte.Codec.Strays

/-! What a successful parse leaves: whatever a message stores among its unknown fields, none of its
fields takes. -/
namespace Protocyte
open Foundation.Computation Foundation.Wire

variable {O P T α β : Type} {Sub : ℕ → Type}

/-- A success gives `Q`. -/
def Gives (x : ParseM O α) (s : Parse O) (Q : α → Parse O → Prop) : Prop :=
  ∀ a t, x s = .ok a t → Q a t

namespace Gives

variable {x : ParseM O α} {s : Parse O} {Q Q' : α → Parse O → Prop}

theorem mono (hx : Gives x s Q) (h : ∀ a t, Q a t → Q' a t) : Gives x s Q' := fun a t hat =>
  h a t (hx a t hat)

theorem pure {a : α} (h : Q a s) : Gives (Pure.pure a) s Q := by
  rintro _ _ ⟨⟩
  exact h

theorem bind {f : α → ParseM O β} {R : β → Parse O → Prop} (hx : Gives x s Q)
    (hf : ∀ a t, Q a t → Gives (f a) t R) : Gives (x >>= f) s R := by
  intro b u h
  obtain ⟨a, t, hat, hbu⟩ := bind_eq_ok.mp h
  exact hf a t (hx a t hat) b u hbu

theorem get_bind {f : Parse O → ParseM O α} (hf : Gives (f s) s Q) :
    Gives (MonadState.get >>= f) s Q := hf

theorem ite {c : Prop} [Decidable c] {y : ParseM O α} (hx : c → Gives x s Q)
    (hy : ¬c → Gives y s Q) : Gives (if c then x else y) s Q := by
  split
  · exact hx ‹_›
  · exact hy ‹_›

theorem failField (code : ErrorCode) (n : ℕ) : Gives (failField code n : ParseM O α) s Q := nofun

theorem withField (n : ℕ) (hx : Gives x s Q) : Gives (withField n x) s Q := fun a t h =>
  hx a t (withField_eq_ok.mp h)

theorem modifying (f : Parse O → Parse O) {Q : Unit → Parse O → Prop} (h : Q () (f s)) :
    Gives (modify f : ParseM O Unit) s Q := by
  rintro _ _ ⟨⟩
  exact h

theorem ofExcept {x : Except Error α} (h : ∀ a, x = .ok a → Q a s) : Gives (ofExcept x) s Q := by
  intro a t hat
  obtain ⟨ha, rfl⟩ := ofExcept_eq_ok.mp hat
  exact h a ha

theorem onReader {x : ReaderM α} (h : ∀ a r, x s.reader = .ok a r → Q a { s with reader := r }) :
    Gives (onReader x) s Q := by
  intro a t hat
  obtain ⟨r, hr, rfl⟩ := onReader_eq_ok.mp hat
  exact h a r hr

theorem onBound {x : BoundM O α} (h : ∀ a b, x s.toBound = .ok a b → Q a { s with toBound := b }) :
    Gives (onBound x) s Q := by
  intro a t hat
  obtain ⟨b, hb, rfl⟩ := onBound_eq_ok.mp hat
  exact h a b hb

theorem onContext {x : EStateM Error Context α}
    (h : ∀ a ctx, x s.ctx = .ok a ctx → Q a { s with ctx }) : Gives (onContext x) s Q := by
  intro a t hat
  unfold Protocyte.onContext at hat
  cases hx : x s.ctx with
  | ok b ctx =>
    rw [hx] at hat
    cases hat
    exact h _ _ hx
  | error e ctx =>
    rw [hx] at hat
    cases hat

theorem checkReader {check : Reader → Except Error α} (h : ∀ a, Q a s) :
    Gives (checkReader check) s Q := by
  intro a t hat
  unfold Protocyte.checkReader at hat
  split at hat
  · cases hat
    exact h a
  · cases hat

theorem zoom (l : Lens O P) {x : ParseM P α} {Q : α → Parse P → Prop}
    (hx : Gives x { ctx := s.ctx, obj := l.get s.obj, reader := s.reader } Q) :
    Gives (zoom l x) s fun a t => ∃ u, Q a u ∧
      t = { ctx := u.ctx, obj := l.set u.obj s.obj, reader := u.reader } := by
  intro a t hat
  unfold Protocyte.zoom at hat
  split at hat
  · next u hu =>
    cases hat
    exact ⟨u, hx _ _ hu, rfl⟩
  · cases hat

theorem inTemporary (init : T) {x : ParseM T α} {Q : α → Parse T → Prop}
    (hx : Gives x { ctx := s.ctx, obj := init, reader := s.reader } Q) :
    Gives (inTemporary init x : ParseM O (α × T)) s fun p t => ∃ u, Q p.1 u ∧ p.2 = u.obj ∧
      t = { ctx := u.ctx, obj := s.obj, reader := u.reader } := by
  intro p t hat
  unfold Protocyte.inTemporary at hat
  split at hat
  · next u hu =>
    cases hat
    exact ⟨u, hx _ _ hu, rfl, rfl⟩
  · cases hat

theorem through {wrap : Reader → Reader} {x : ParseM O α} {Q : α → Parse O → Prop}
    (hx : Gives x { s with reader := wrap s.reader } Q) :
    Gives (through wrap x) s fun a t => ∃ u, Q a u ∧ t = { u with reader := u.reader.wrapped } := by
  intro a t hat
  unfold Protocyte.through at hat
  split at hat
  · next u hu =>
    cases hat
    exact ⟨u, hx _ _ hu, rfl⟩
  · cases hat

theorem releasing (hx : Gives x s fun a t => Q a { t with ctx := t.ctx.popRecursion }) :
    Gives (releasing x) s Q := by
  intro a t hat
  unfold Protocyte.releasing at hat
  split at hat
  · next u hu =>
    cases hat
    exact hx _ _ hu
  · cases hat

theorem located (hx : Gives x s Q) : Gives (located x) s Q := by
  intro a t hat
  unfold Protocyte.located at hat
  split at hat
  · next hu =>
    cases hat
    exact hx _ _ hu
  · cases hat

/-- The object stays as it is. -/
abbrev Idle (x : ParseM O α) (s : Parse O) : Prop := Gives x s fun _ t => t.obj = s.obj

theorem idle_onReader (x : ReaderM α) : Idle (Protocyte.onReader x : ParseM O α) s :=
  onReader fun _ _ _ => rfl

theorem idle_onContext (x : EStateM Error Context α) :
    Idle (Protocyte.onContext x : ParseM O α) s := onContext fun _ _ _ => rfl

/-- A step that leaves the object, and then the rest. -/
theorem after {f : α → ParseM O β} {R : β → Parse O → Prop} (hx : Idle x s)
    (hf : ∀ a t, t.obj = s.obj → Gives (f a) t R) : Gives (x >>= f) s R := bind hx hf

theorem idle_pushRecursion (n : ℕ) : Idle (pushRecursion n : ParseM O Unit) s := by
  intro _ t hat
  unfold pushRecursion at hat
  split at hat
  · cases hat
  · cases hat
    rfl

theorem of_contract {n : ℕ} {E : O → O → Prop} {Q : O → α → O → Prop} (h : Contract n E Q x) :
    Gives x s fun a t => Q s.obj a t.obj := fun a t hat => by
  have hs := h s
  unfold ContractAt at hs
  exact (hs.ok hat).2

theorem idle (h : Quiet 0 x) : Idle x s := of_contract h

/-- What holds before the loop and after every iteration holds after the loop. -/
theorem fieldLoop {step : Tag → ParseM O Unit} {J : Parse O → Prop}
    (hstep : ∀ t, J t → Gives (do step (← Protocyte.onReader readTag)) t fun _ u => J u) (n : ℕ)
    (h : J s) : Gives (fieldLoop step n) s fun _ t => J t ∧ t.reader.eof = true := by
  induction n generalizing s with
  | zero => nofun
  | succ n ih =>
    intro _ t hat
    change (if s.reader.eof = true then _ else _) = _ at hat
    split at hat
    · next heof =>
      cases hat
      exact ⟨h, heof⟩
    · obtain ⟨tag, u, htag, hat⟩ := bind_eq_ok.mp hat
      obtain ⟨⟨⟩, v, huv, hvt⟩ := bind_eq_ok.mp hat
      exact ih (hstep s h () v (bind_eq_ok.mpr ⟨tag, u, htag, huv⟩)) () t hvt

theorem forEachField {step : Tag → ParseM O Unit} {J : Parse O → Prop}
    (hstep : ∀ t, J t → Gives (do step (← Protocyte.onReader readTag)) t fun _ u => J u)
    (h : J s) : Gives (forEachField step) s fun _ t => J t ∧ t.reader.eof = true :=
  fieldLoop hstep _ h

end Gives

/-- The encodings of records that `P` holds of. Where unknown fields are dropped there are none. -/
def StoredBy (P : Tree → Prop) (preserve : Bool) (bs : List UInt8) : Prop :=
  ∃ ts, bs = encodeAll ts ∧ (∀ t ∈ ts, P t) ∧ (preserve = false → ts = [])

namespace StoredBy

variable {P P' : Tree → Prop} {preserve : Bool} {bs cs : List UInt8}

theorem nil : StoredBy P preserve [] := ⟨[], encodeAll_nil.symm, nofun, fun _ => rfl⟩

theorem one {t : Tree} (h : P t) : StoredBy P true t.encode := by
  refine ⟨[t], (encodeAll_singleton t).symm, fun u hu => ?_, nofun⟩
  rw [List.mem_singleton.mp hu]
  exact h

theorem append (hb : StoredBy P preserve bs) (hc : StoredBy P preserve cs) :
    StoredBy P preserve (bs ++ cs) := by
  obtain ⟨ts, rfl, hts, htn⟩ := hb
  obtain ⟨us, rfl, hus, hun⟩ := hc
  refine ⟨ts ++ us, (encodeAll_append ts us).symm, fun t ht => ?_, fun hp => ?_⟩
  · rcases List.mem_append.mp ht with ht | ht
    · exact hts t ht
    · exact hus t ht
  · rw [htn hp, hun hp, List.append_nil]

theorem mono (h : StoredBy P preserve bs) (hP : ∀ t, P t → P' t) : StoredBy P' preserve bs := by
  obtain ⟨ts, hbs, hts, hn⟩ := h
  exact ⟨ts, hbs, fun t ht => hP t (hts t ht), hn⟩

end StoredBy

/-- The storage of the second object is the one of the first and such records. -/
def Gains (unknown : O → Bytes) (P : Tree → Prop) (preserve : Bool) (o o' : O) : Prop :=
  ∃ bs, (unknown o').val = (unknown o).val ++ bs ∧ StoredBy P preserve bs

namespace Gains

variable {unknown : O → Bytes} {P : Tree → Prop} {preserve : Bool} {o o' o'' : O}

theorem of_eq (h : unknown o' = unknown o) : Gains unknown P preserve o o' :=
  ⟨[], by rw [h, List.append_nil], .nil⟩

theorem trans (h : Gains unknown P preserve o o') (h' : Gains unknown P preserve o' o'') :
    Gains unknown P preserve o o'' := by
  obtain ⟨bs, ho, hbs⟩ := h
  obtain ⟨cs, ho', hcs⟩ := h'
  exact ⟨bs ++ cs, by rw [ho', ho, List.append_assoc], hbs.append hcs⟩

end Gains

/-- Nothing but the storage changes, which gains such records. -/
def Lens.Gains (unknown : Lens O Bytes) (P : Tree → Prop) (preserve : Bool) (o o' : O) : Prop :=
  ∃ storage : Bytes, o' = unknown.set storage o ∧
    ∃ bs, storage.val = (unknown.get o).val ++ bs ∧ StoredBy P preserve bs

theorem Lens.Gains.of_eq {unknown : Lens O Bytes} {P : Tree → Prop} {preserve : Bool} {o o' : O}
    (h : o' = o) : unknown.Gains P preserve o o' :=
  ⟨unknown.get o, by rw [unknown.set_get, h], [], (List.append_nil _).symm, .nil⟩

theorem Lens.Gains.mono {unknown : Lens O Bytes} {P P' : Tree → Prop} {preserve : Bool} {o o' : O}
    (h : unknown.Gains P preserve o o') (hP : ∀ t, P t → P' t) :
    unknown.Gains P' preserve o o' := by
  obtain ⟨storage, ho, bs, hstorage, hbs⟩ := h
  exact ⟨storage, ho, bs, hstorage, hbs.mono hP⟩

section
variable {unknown : Lens O Bytes} {preserve : Bool} {f : ℕ} {s : Parse O}

/-- What an addition to the storage stores. -/
private theorem gains_onBound {x : BoundM ByteVec Unit} {r : Tree} {P : Tree → Prop}
    (hx : Appends x r.encode) (hr : P r) :
    Gives (zoom (unknown.comp storageLens) (onBound x)) s fun _ t =>
      unknown.Gains P true s.obj t.obj := by
  refine (Gives.zoom (unknown.comp storageLens) (Gives.onBound (Q := fun _ u => u.obj.items =
    (unknown.get s.obj).val ++ r.encode) fun a b hb => ((hx _).ok hb).2)).mono ?_
  rintro _ _ ⟨u, hu, rfl⟩
  exact ⟨⟨u.obj.items, u.obj.size_le⟩, rfl, r.encode, hu, .one hr⟩

theorem readAcceptedScalar_gains (t : ScalarType) (read : ReaderM t.Value)
    (hf : 0 < f ∧ f ≤ maxNumber) : Gives (readAcceptedScalar preserve unknown t read f) s
      fun _ u => unknown.Gains (t.Undeclared f) preserve s.obj u.obj := by
  unfold readAcceptedScalar
  refine .ite (fun _ => ?_) fun _ => ?_
  · refine .bind (Gives.onReader (Q := fun raw u => raw < 2 ^ 64 ∧ u.obj = s.obj) ?_) ?_
    · intro raw r hr
      obtain ⟨_, _, _, hraw, _⟩ := readVarint_eq_ok.mp hr
      exact ⟨hraw.2.2, rfl⟩
    intro raw u ⟨hraw, hu⟩
    refine .ite (fun hinvalid => ?_) fun _ => .pure (.of_eq hu)
    cases preserve with
    | false => exact .pure (.of_eq hu)
    | true =>
      have htoNat : (UInt64.ofNat raw).toNat = raw := Nat.mod_eq_of_lt hraw
      have happends := MutableUnknownFieldSet.addVarint_appends hf (UInt64.ofNat raw)
      rw [htoNat] at happends
      have hundeclared : t.Undeclared f (.varint f raw) := ⟨raw, hraw, hinvalid, rfl⟩
      refine .bind (gains_onBound happends hundeclared) fun _ v hv => .pure ?_
      rw [← hu]
      exact hv
  · exact .after (Gives.idle_onReader read) fun a u hu => .pure (.of_eq hu)

/-- A record that is read has the number and the wire type, and the canonical body is one of it. -/
theorem handleUnknownField_gains (w : WireType) (hf : f ≤ maxNumber) :
    Gives (handleUnknownField preserve unknown w f) s fun _ u =>
      unknown.Gains (fun r => r.number = f ∧ r.code = w.code ∧
        ∃ d, Body d r.number r.code r.body r) preserve s.obj u.obj := by
  unfold handleUnknownField
  cases preserve with
  | false =>
    exact (Gives.idle (skipField_quiet 0 w f)).mono fun _ u hu => .of_eq hu
  | true =>
    refine (Gives.zoom (unknown.comp storageLens) (Q := fun _ u => ∃ r : Tree, u.obj.items =
      (unknown.get s.obj).val ++ r.encode ∧ r.number = f ∧ r.code = w.code ∧
        ∃ d, Body d r.number r.code r.body r) ?_).mono ?_
    · intro _ u hu
      obtain ⟨bs, _, r, _, hbody, hstored⟩ := (readUnknownField_exits w hf _).ok hu
      have hcanonical := (body_canonical _).body hbody
      obtain ⟨hnumber, hcode⟩ := (body_canonical _).number_code hbody
      rw [← hnumber, ← hcode] at hcanonical
      exact ⟨r, hstored.items, hnumber, hcode, _, hcanonical⟩
    · rintro _ _ ⟨u, ⟨r, hu, hr⟩, rfl⟩
      exact ⟨⟨u.obj.items, u.obj.size_le⟩, rfl, r.encode, hu, .one hr⟩

end

/-- What the nested messages are is kept: by a new one, by a copy and by a merge. -/
structure MessageOps.Keeps (ops : MessageOps Sub) (K : (id : ℕ) → Sub id → Prop) : Prop where
  create (id : ℕ) (m : Sub id) (h : ops.create id = .ok m) : K id m
  copier : ops.copier.Keeps K
  merge (id : ℕ) (s : Parse (Sub id)) (h : K id s.obj) :
    Gives (ops.mergeFieldsFrom id) s fun _ t => K id t.obj

section
variable {ops : MessageOps Sub} {K : (id : ℕ) → Sub id → Prop} {preserve : Bool} {f : ℕ}
variable {s : Parse O}

theorem Gives.openNestedMessage (f : ℕ) : Gives.Idle (openNestedMessage f) s := by
  have hpush (size : ℕ) (t : Parse O) : Gives.Idle (openNestedMessageSized size f) t :=
    .get_bind (.ite (fun _ => .failField _ _) fun _ => Gives.idle_pushRecursion f)
  refine .after (.withField f (Gives.idle_onReader _)) fun size t ht => ?_
  exact .after (.withField f (hpush size t)) fun _ u hu => .pure (hu.trans ht)

theorem Gives.nestedMessage (size : ℕ) {x : ParseM O α} {Q : α → O → Prop}
    (hx : ∀ t, t.obj = s.obj → Gives x t fun a u => Q a u.obj) :
    Gives (nestedMessage size x) s fun a u => Q a u.obj := by
  refine .releasing ((Gives.through (Q := fun a u => Q a u.obj) (.bind (hx _ rfl) ?_)).mono ?_)
  · intro a t ht
    refine .after (Gives.idle_onReader _) fun _ u hu => .pure ?_
    rw [hu]
    exact ht
  · rintro a _ ⟨u, hu, rfl⟩
    exact hu

theorem readMessagePartial_keeps (hops : ops.Keeps K) {id : ℕ} {out : Sub id} (h : K id out) :
    Gives (readMessagePartial ops id f out) s fun m t => K id m ∧ t.obj = s.obj := by
  have hmerge (t : Parse O) : Gives (through Reader.ref (inTemporary out (ops.mergeFieldsFrom id)))
      t fun p u => K id p.2 ∧ u.obj = t.obj := by
    refine (Gives.through (.inTemporary out (hops.merge id _ h))).mono ?_
    rintro ⟨_, m⟩ _ ⟨_, ⟨u, hu, rfl, rfl⟩, rfl⟩
    exact ⟨hu, rfl⟩
  refine .withField f (.after (Gives.openNestedMessage f) fun size t ht => ?_)
  refine (Gives.nestedMessage size (Q := fun m o => K id m ∧ o = t.obj) fun u hu => ?_).mono ?_
  · refine .bind (hmerge u) ?_
    exact fun p v ⟨hp, hv⟩ => .pure ⟨hp, hv.trans hu⟩
  · exact fun m v ⟨hm, hv⟩ => ⟨hm, hv.trans ht⟩

/-- A value that is read comes with no change of the object but the storage. -/
theorem readSingleValue_keeps (hops : ops.Keeps K) (unknown : Lens O Bytes) (w : WireType)
    (hf : 0 < f ∧ f ≤ maxNumber) (kind : SingularKind) (existing : Option (kind.Carrier Sub))
    {P : Tree → Prop} (hP : ∀ t, kind = .value (.scalar t) → ∀ r, t.Undeclared f r → P r)
    (hold : ∀ v, existing = some v → kind.Nested K v) :
    Gives (readSingleValue ops preserve unknown w f kind existing) s fun a u =>
      unknown.Gains P preserve s.obj u.obj ∧ ∀ v, a = some v → kind.Nested K v := by
  cases kind with
  | byteArray max fixed =>
    refine .after (Gives.idle (readBoundedBytes_quiet max fixed f)) fun a u hu => .pure ?_
    exact ⟨.of_eq hu, fun _ _ => trivial⟩
  | value kind =>
    cases kind with
    | scalar t =>
      refine (readAcceptedScalar_gains t _ hf).mono fun a u hu => ⟨hu.mono (hP t rfl), ?_⟩
      exact fun _ _ => trivial
    | string =>
      refine .after (Gives.idle (readStringField_quiet w f)) fun a u hu => .pure ?_
      exact ⟨.of_eq hu, fun _ _ => trivial⟩
    | bytes =>
      refine .after (Gives.idle (readBytesField_quiet w f)) fun a u hu => .pure ?_
      exact ⟨.of_eq hu, fun _ _ => trivial⟩
    | message id boxed =>
      have hread (value : Sub id) (hvalue : K id value) (t : Parse O) (ht : t.obj = s.obj) :
          Gives (do
            let value ← readMessagePartial ops id f value
            onContext (takeBlock (if boxed then 1 else 0))
            return some value : ParseM O (Option (Sub id))) t fun a u =>
              unknown.Gains P preserve s.obj u.obj ∧ ∀ v, a = some v → K id v := by
        refine .bind (readMessagePartial_keeps hops hvalue) fun m u ⟨hm, hu⟩ => ?_
        refine .after (Gives.idle_onContext _) fun _ v hv => .pure ?_
        refine ⟨.of_eq (hv.trans (hu.trans ht)), ?_⟩
        rintro _ ⟨⟩
        exact hm
      refine .after (Gives.idle_onReader _) fun _ t ht => ?_
      refine .bind (Q := fun m u => K id m ∧ u.obj = s.obj) (.ofExcept ?_) ?_
      · exact fun m hm => ⟨hops.create id m hm, ht⟩
      rintro fresh u ⟨hm, hu⟩
      cases existing with
      | none => exact hread fresh hm u hu
      | some source =>
        refine .bind (Q := fun m v => K id m ∧ v.obj = s.obj) (.onContext ?_) ?_
        · exact fun m ctx hcopy => ⟨hops.copier id source _ m _ hcopy (hold source rfl), hu⟩
        · exact fun m v ⟨hm, hv⟩ => hread m hm v hv

theorem readRepeatedValue_keeps (hops : ops.Keeps K) (unknown : Lens O Bytes) (w : WireType)
    (hf : 0 < f ∧ f ≤ maxNumber) (kind : ValueKind) {P : Tree → Prop}
    (hP : ∀ t, kind = .scalar t → ∀ r, t.Undeclared f r → P r) :
    Gives (readRepeatedValue ops preserve unknown w f kind) s fun a u =>
      unknown.Gains P preserve s.obj u.obj ∧ ∀ v, a = some v → kind.Nested K v := by
  cases kind with
  | scalar t =>
    refine (readAcceptedScalar_gains t _ hf).mono fun a u hu => ⟨hu.mono (hP t rfl), ?_⟩
    exact fun _ _ => trivial
  | string =>
    refine .after (Gives.idle (readStringField_quiet w f)) fun a u hu => .pure ?_
    exact ⟨.of_eq hu, fun _ _ => trivial⟩
  | bytes =>
    refine .after (Gives.idle (readBytesField_quiet w f)) fun a u hu => .pure ?_
    exact ⟨.of_eq hu, fun _ _ => trivial⟩
  | message id boxed =>
    refine .after (Gives.idle_onReader _) fun _ t ht => ?_
    refine .bind (Q := fun m u => K id m ∧ u.obj = s.obj) (.ofExcept ?_) ?_
    · exact fun m hm => ⟨hops.create id m hm, ht⟩
    rintro fresh u ⟨hm, hu⟩
    refine .bind (readMessagePartial_keeps hops hm) fun m v ⟨hm, hv⟩ => .pure ?_
    refine ⟨.of_eq (hv.trans hu), ?_⟩
    rintro _ ⟨⟩
    exact hm

/-- What a field occurrence keeps: `K` of the nested messages, and the storage, which gains records
that the field diverts. -/
structure Slot.Grows (K : (id : ℕ) → Sub id → Prop) (P : Tree → Prop) (preserve : Bool)
    {kind : FieldKind} (old new : Slot Sub kind) : Prop where
  nested (h : FieldState.Nests (fun _ => K) kind old.value) :
    FieldState.Nests (fun _ => K) kind new.value
  unknown : Gains Slot.unknown P preserve old new

variable {P : Tree → Prop}

theorem Lens.Gains.grows {kind : FieldKind} {old new : Slot Sub kind}
    (h : Slot.unknownLens.Gains P preserve old new) : old.Grows K P preserve new := by
  obtain ⟨storage, rfl, bs, hstorage, hbs⟩ := h
  exact ⟨id, bs, hstorage, hbs⟩

theorem Slot.Grows.trans {kind : FieldKind} {o o' o'' : Slot Sub kind}
    (h : o.Grows K P preserve o') (h' : o'.Grows K P preserve o'') : o.Grows K P preserve o'' :=
  ⟨fun hold => h'.nested (h.nested hold), h.unknown.trans h'.unknown⟩

theorem Slot.Grows.stored {kind : FieldKind} {old new : Slot Sub kind} {v : FieldState Sub kind}
    (h : old.Grows K P preserve new) (hv : FieldState.Nests (fun _ => K) kind v) :
    old.Grows K P preserve { new with value := v } :=
  ⟨fun _ => hv, h.unknown⟩

/-- Only the value of the field changes. -/
theorem Gives.zoom_valueLens {kind : FieldKind} {s : Parse (Slot Sub kind)}
    {x : ParseM (FieldState Sub kind) α}
    (hx : Gives x { ctx := s.ctx, obj := s.obj.value, reader := s.reader } fun _ u =>
      FieldState.Nests (fun _ => K) kind s.obj.value →
        FieldState.Nests (fun _ => K) kind u.obj) :
    Gives (Protocyte.zoom Slot.valueLens x) s fun _ t => s.obj.Grows K P preserve t.obj := by
  refine (Gives.zoom Slot.valueLens hx).mono ?_
  rintro _ _ ⟨u, hu, rfl⟩
  exact ⟨hu, .of_eq rfl⟩

theorem readRepeatedField_grows {kind : ValueKind} {packed : Bool} {storage : Storage}
    (hops : ops.Keeps K) (w : WireType) (hf : 0 < f ∧ f ≤ maxNumber)
    (hP : ∀ t, kind = .scalar t → ∀ r, t.Undeclared f r → P r)
    {s : Parse (Slot Sub (.repeated kind packed storage))} :
    Gives (readRepeatedField ops preserve w f) s fun _ t => s.obj.Grows K P preserve t.obj := by
  refine .after (Gives.idle_onReader _) fun _ t ht => ?_
  rw [← ht]
  refine .bind (readRepeatedValue_keeps hops Slot.unknownLens w hf kind hP) ?_
  rintro (_ | value) u ⟨hu, hvalue⟩
  · exact .pure hu.grows
  · have hpush : Gives (onBound (Items.pushBack (α := kind.Carrier Sub) false value))
        { ctx := u.ctx, obj := u.obj.value, reader := u.reader } fun _ v =>
          FieldState.Nests (fun _ => K) (.repeated kind packed storage) u.obj.value →
            FieldState.Nests (fun _ => K) (.repeated kind packed storage) v.obj := by
      refine .onBound fun a b hb hold w hw => ?_
      have hitems := ((Items.pushBack_exits false value _).ok hb).2
      rw [hitems] at hw
      rcases List.mem_append.mp hw with hmem | hmem
      · exact hold w hmem
      · rw [List.mem_singleton.mp hmem]
        exact hvalue value rfl
    exact (Gives.zoom_valueLens hpush).mono fun _ v hv => hu.grows.trans hv

section
variable {t : ScalarType} {storage : Storage} {packed : Bool}

/-- What follows an accepted value keeps what was stored for it. -/
private theorem accepted_gains (hf : 0 < f ∧ f ≤ maxNumber)
    {next : Option t.Value → ParseM (Packed t storage) Unit}
    (hnext : ∀ a v, Gives (next a) v fun _ w =>
      Gains Packed.unknown (t.Undeclared f) preserve v.obj w.obj) (u : Parse (Packed t storage)) :
    Gives (readAcceptedScalar preserve Packed.unknownLens t (readScalar t) f >>= next) u fun _ w =>
      Gains Packed.unknown (t.Undeclared f) preserve u.obj w.obj := by
  refine .bind (readAcceptedScalar_gains t _ hf) fun a v haccepted => ?_
  obtain ⟨storage, hv, bs, hstorage, hbs⟩ := haccepted
  have hgains : Gains Packed.unknown (t.Undeclared f) preserve u.obj v.obj :=
    ⟨bs, by rw [hv]; exact hstorage, hbs⟩
  exact (hnext a v).mono fun _ _ hw => hgains.trans hw

/-- An element may be counted before it is read. -/
private theorem consumed_gains {n : ℕ} {c : Prop} [Decidable c]
    {x : ParseM (Packed t storage) Unit} (hx : ∀ v, Gives x v fun _ w =>
      Gains Packed.unknown (t.Undeclared f) preserve v.obj w.obj) {s : Parse (Packed t storage)} :
    Gives (if c then onReader (Reader.consumeRepeatedElements n f) >>= fun _ => x else x) s
      fun _ u => Gains Packed.unknown (t.Undeclared f) preserve s.obj u.obj := by
  refine .ite (fun _ => .after (Gives.idle_onReader _) fun _ v hv => ?_) fun _ => hx s
  rw [← hv]
  exact hx v

private theorem readPackedLoop_gains (hf : 0 < f ∧ f ≤ maxNumber) (n : ℕ)
    {s : Parse (Packed t storage)} : Gives (readPackedLoop preserve t f n) s fun _ u =>
      Gains Packed.unknown (t.Undeclared f) preserve s.obj u.obj := by
  induction n generalizing s with
  | zero =>
    intro _ u hu
    cases hu
  | succ n ih =>
    intro _ u hu
    change (if s.reader.eof = true then _ else _) = _ at hu
    split at hu
    · cases hu
      exact .of_eq rfl
    · refine consumed_gains (accepted_gains hf fun a v => ?_) _ _ hu
      cases a with
      | none => exact ih
      | some value =>
        refine .bind (Gives.zoom Packed.valuesLens (.onBound (Q := fun _ _ => True)
          fun _ _ _ => trivial)) fun _ w hw => ?_
        obtain ⟨values, _, hw⟩ := hw
        rw [hw]
        exact ih.mono fun _ x hx => .trans (.of_eq rfl) hx

private theorem readPackedValues_gains (hf : 0 < f ∧ f ≤ maxNumber) {s : Parse (Packed t storage)} :
    Gives (readPackedValues preserve t f) s fun _ u =>
      Gains Packed.unknown (t.Undeclared f) preserve s.obj u.obj := readPackedLoop_gains hf _

private theorem reservePackedRun_unknown (len : ℕ) {s : Parse (Packed t storage)} :
    Gives (reservePackedRun t len) s fun _ u => u.obj.unknown = s.obj.unknown := by
  cases storage with
  | array max fixed => exact .pure rfl
  | vector maxSize =>
    unfold reservePackedRun
    cases t.fixedWidth with
    | none => exact .pure rfl
    | some width =>
      refine (Gives.zoom Packed.valuesLens (Q := fun _ _ => True) fun _ _ _ => trivial).mono ?_
      rintro _ _ ⟨u, _, rfl⟩
      rfl

variable {s : Parse (PackedSlot Sub t packed storage)}

private theorem zoom_valueLens_unknown (x : ParseM (Items t.Value storage) α) :
    Gives (zoom Slot.valueLens x : ParseM (PackedSlot Sub t packed storage) α) s fun _ u =>
      u.obj.unknown = s.obj.unknown := by
  refine (Gives.zoom Slot.valueLens (Q := fun _ _ => True) fun _ _ _ => trivial).mono ?_
  rintro _ _ ⟨u, _, rfl⟩
  rfl

private theorem commitPackedEnum_gains {run : Packed t storage} {P : Tree → Prop}
    (hrun : StoredBy P preserve run.unknown.val) :
    Gives (commitPackedEnum preserve run f) s fun _ u =>
      Gains Slot.unknown P preserve s.obj u.obj := by
  refine .bind (zoom_valueLens_unknown _) fun _ u hu => .ite (fun _ => ?_) fun _ => ?_
  · refine .get_bind (.bind (Q := fun merged v => merged.val = u.obj.unknown.val ++
      run.unknown.val ∧ v.obj = u.obj) (.onContext fun merged ctx hm => ?_) ?_)
    · exact ⟨((mergedStorage_exits _ _ _).ok hm).2, rfl⟩
    rintro merged v ⟨hm, _⟩
    refine .bind (zoom_valueLens_unknown _) fun _ w _ => .modifying _ ?_
    rw [hu] at hm
    exact ⟨run.unknown.val, hm, hrun⟩
  · exact (zoom_valueLens_unknown _).mono fun _ v hv => .of_eq (hv.trans hu)

private theorem readStagedPackedField_gains (hf : 0 < f ∧ f ≤ maxNumber) (len : ℕ) :
    Gives (readStagedPackedField preserve len f) s fun _ u =>
      Gains Slot.unknown (t.Undeclared f) preserve s.obj u.obj := by
  have hcharge (u : Parse (PackedSlot Sub t packed storage)) :
      Gives.Idle (chargePackedRun t len f) u := by
    unfold chargePackedRun
    cases t.fixedWidth with
    | none => exact .pure rfl
    | some width => exact .ite (fun _ => .failField _ _) fun _ => Gives.idle_onReader _
  have hread (u : Parse (PackedSlot Sub t packed storage)) : Gives (inTemporary
      (⟨Items.empty, Bytes.empty⟩ : Packed t storage) do
        reservePackedRun t len
        through (Reader.limited · len) (readPackedValues preserve t f)) u fun p v =>
          StoredBy (t.Undeclared f) preserve p.2.unknown.val ∧ v.obj = u.obj := by
    refine (Gives.inTemporary _ (Q := fun _ v => StoredBy (t.Undeclared f) preserve
      v.obj.unknown.val) (.bind (reservePackedRun_unknown len) fun _ v hv => ?_)).mono ?_
    · refine (Gives.through (readPackedValues_gains hf)).mono ?_
      rintro _ _ ⟨w, ⟨bs, hw, hbs⟩, rfl⟩
      have hstart : v.obj.unknown.val = [] := by rw [hv]; rfl
      rw [hstart] at hw
      exact hw ▸ hbs
    · rintro ⟨_, p⟩ _ ⟨v, hv, rfl, rfl⟩
      exact ⟨hv, rfl⟩
  refine .after (.checkReader fun _ => rfl) fun _ u hu => .after (hcharge u) fun _ v hv => ?_
  refine .bind (hread v) ?_
  rintro ⟨_, run⟩ w ⟨hrun, hw⟩
  have hobj : w.obj = s.obj := by rw [hw, hv, hu]
  rw [← hobj]
  refine .ite (fun _ => commitPackedEnum_gains hrun) fun _ => ?_
  exact (zoom_valueLens_unknown _).mono fun _ x hx => .of_eq hx

theorem readPackedField_grows (hf : 0 < f ∧ f ≤ maxNumber) :
    Gives (readPackedField preserve f) s fun _ u =>
      s.obj.Grows K (t.Undeclared f) preserve u.obj := by
  have hstaged (len : ℕ) (u : Parse (PackedSlot Sub t packed storage)) :
      Gives (readStagedPackedField preserve len f) u fun _ v =>
        Gains Slot.unknown (t.Undeclared f) preserve u.obj v.obj :=
    readStagedPackedField_gains hf len
  refine Gives.mono (Q := fun _ u => Gains Slot.unknown (t.Undeclared f) preserve s.obj u.obj) ?_
    fun _ u hu => ⟨fun _ _ _ => trivial, hu⟩
  refine .after (Gives.idle_onReader _) fun len u hu => ?_
  rw [← hu]
  cases storage with
  | array max fixed => exact hstaged len u
  | vector maxSize =>
    cases t.bulkWidth with
    | none => exact hstaged len u
    | some width => exact (zoom_valueLens_unknown _).mono fun _ v hv => .of_eq hv

end

/-- What is read comes next, as one of the words `W` has for it. -/
abbrev Finds (x : ParseM O α) (s : Parse O) (W : List UInt8 → α → Prop) : Prop :=
  Gives x s fun a _ => ∃ bs, bs <+: s.reader.rest ∧ W bs a

theorem readLengthDelimited_finds (text : Bool) : Finds (readLengthDelimited text) s fun bs v =>
    Delimited bs v.val ∧ (text = true → validateUtf8 v.val = true) := by
  have hsize (size : Usize) (r : Reader) (h : readSize s.reader = .ok size r) :
      ∃ ls xs, s.reader.rest = ls ++ xs ∧ Varint ls size ∧ r = s.reader.advance ls.length := by
    unfold readSize at h
    split at h
    · next n r' hr =>
      cases h
      exact readLengthDelimitedSize_eq_ok.mp hr
    · cases h
  unfold Finds readLengthDelimited
  refine .bind (Q := fun (size : Usize) t => ∃ ls, Varint ls size ∧
    s.reader.rest = ls ++ t.reader.rest) (.onReader fun size r hr => ?_) ?_
  · obtain ⟨ls, xs, hrest, hls, rfl⟩ := hsize size r hr
    refine ⟨ls, hls, ?_⟩
    rw [Reader.rest_advance, hrest, List.drop_left]
  rintro size t ⟨ls, hls, hrest⟩
  refine .get_bind (.ite (fun _ => .failField _ _) fun _ => ?_)
  refine .bind (Q := fun _ u => u = t) (.checkReader fun _ => rfl) fun _ u hu => ?_
  refine .bind (Q := fun _ v => v.reader = t.reader) (.located (.onContext fun _ _ _ => ?_)) ?_
  · rw [hu]
  intro _ v hv
  refine .bind (Q := fun buffer _ => buffer.val <+: t.reader.rest) (.onReader ?_) ?_
  · intro buffer r hr
    rw [hv] at hr
    unfold Reader.readBuffer at hr
    split at hr
    · next hread =>
      cases hr
      obtain ⟨_, hbytes, _⟩ := Reader.read_eq_ok.mp hread
      exact hbytes ▸ List.take_prefix size.val t.reader.rest
    · cases hr
  intro buffer w hbuffer
  refine .ite (fun _ => .failField _ _) fun hvalid => .pure ?_
  refine ⟨ls ++ buffer.val, ?_, ⟨ls, ?_, rfl⟩, ?_⟩
  · rw [hrest]
    exact (List.prefix_append_right_inj ls).mpr hbuffer
  · rw [buffer.2]
    exact hls
  · intro htext
    simpa [htext] using hvalid

section
variable {key : KeyKind} {t : ScalarType}

/-- A step of an entry takes the bytes of a field. -/
private theorem readEntryField_finds {s : Parse (Entry Sub key (.scalar t))} :
    Gives (do readEntryField ops (← onReader readTag)) s fun _ _ =>
      ∃ f : SpelledField Sub key (.scalar t), f.bytes <+: s.reader.rest := by
  refine .bind (Q := fun tag u => ∃ ks, Key ks tag.fieldNumber tag.wireType.code ∧
    s.reader.rest = ks ++ u.reader.rest) (.onReader fun tag r hr => ?_) ?_
  · obtain ⟨ks, xs, hrest, hkey, rfl⟩ := readTag_eq_ok.mp hr
    refine ⟨ks, hkey, ?_⟩
    rw [Reader.rest_advance, hrest, List.drop_left]
  rintro ⟨f, w⟩ u ⟨ks, hkey, hrest⟩
  have hscalar {O : Type} (t : ScalarType) (v : Parse O) :
      Finds (onReader (readScalar t)) v fun bs a => t.Encodes bs a := by
    refine .onReader fun a r hr => ?_
    obtain ⟨bs, xs, hv, henc, -⟩ := t.readScalar_eq_ok.mp hr
    exact ⟨bs, ⟨xs, hv.symm⟩, henc⟩
  have happend {bs : List UInt8} (hbs : bs <+: u.reader.rest) : ks ++ bs <+: s.reader.rest := by
    rw [hrest]
    exact (List.prefix_append_right_inj ks).mpr hbs
  refine .ite (fun hc => ?_) fun hkeyed => .ite (fun hc => ?_) fun hvalued => ?_
  · obtain ⟨rfl, rfl⟩ := hc
    have hread : Finds (readMapMember ops 1 key.value u.obj.key) u fun bs k =>
        key.Encodes bs k := by
      cases key with
      | scalar t h => exact hscalar t u
      | string =>
        refine (readLengthDelimited_finds true).mono ?_
        rintro k _ ⟨bs, hbs, hd, hutf8⟩
        exact ⟨bs, hbs, hd, hutf8 rfl⟩
    refine .get_bind (.bind hread ?_)
    rintro k v ⟨bs, hbs, henc⟩
    exact .modifying _ ⟨⟨.key k, ks ++ bs, .key hkey henc⟩, happend hbs⟩
  · obtain ⟨rfl, rfl⟩ := hc
    refine .get_bind (.bind (hscalar t u) ?_)
    rintro given v ⟨bs, hbs, henc⟩
    have hfield : ∃ f : SpelledField Sub key (.scalar t), f.bytes <+: s.reader.rest :=
      ⟨⟨.value given, ks ++ bs, .value hkey henc⟩, happend hbs⟩
    exact .ite (fun _ => .modifying _ hfield) fun _ => .modifying _ hfield
  · intro _ v hv
    obtain ⟨bs, xs, _, hbs, ⟨r, hbody⟩, _, _⟩ := skipField_accepts w f u v hv
    have htag : Key ks (Tag.mk f w).fieldNumber (Tag.mk f w).wireType.code := hkey
    exact ⟨⟨.other, ks ++ bs, .other htag hbody hkeyed hvalued⟩, happend ⟨xs, hbs.symm⟩⟩

/-- What the bytes are, as fields of an entry, made of the temporaries. -/
def Entry.ParsedFrom (ops : MessageOps Sub) (fresh : Entry Sub key (.scalar t)) (bs : List UInt8)
    (entry : Entry Sub key (.scalar t)) : Prop :=
  ∃ fields : List (SpelledField Sub key (.scalar t)), payload fields = bs ∧
    fresh.After ops fields entry

private theorem parseEntry_finds {fresh : Entry Sub key (.scalar t)}
    (hfresh : fresh.unknown = false) {s : Parse (Entry Sub key (.scalar t))} (hobj : s.obj = fresh)
    (hsteady : s.reader.Steady) :
    Gives (parseEntry ops) s fun _ u => fresh.ParsedFrom ops s.reader.rest u.obj := by
  unfold parseEntry
  refine (Gives.forEachField (J := fun u => u.reader.Steady ∧
    ∃ fields : List (SpelledField Sub key (.scalar t)),
      s.reader.rest = payload fields ++ u.reader.rest ∧ fresh.After ops fields u.obj) ?_ ?_).mono ?_
  · rintro u ⟨husteady, fields, hrest, hafter⟩ _ v hv
    obtain ⟨f, hf⟩ := readEntryField_finds () v hv
    have htakes := readEntryField_takes (B := { limits := {}, room := True }) f hafter
      (fun _ _ => trivial)
    obtain ⟨⟨hmoved, _⟩, hentry⟩ := (htakes hf).ok hv
    refine ⟨husteady.moved hmoved, fields ++ [f], ?_, hentry⟩
    obtain ⟨xs, hxs⟩ := hf
    rw [hmoved.rest, ← hxs, List.drop_left, hrest, ← hxs]
    simp [payload]
  · refine ⟨hsteady, [], rfl, ?_⟩
    rw [hobj]
    exact .start hfresh
  · rintro _ u ⟨⟨husteady, fields, hrest, hafter⟩, heof⟩
    refine ⟨fields, ?_, hafter⟩
    rw [hrest, husteady.eof_iff.mp heof, List.append_nil]

variable {maxBuckets : Usize}

/-- The entry that is stored as a whole has a value that is none of its enumeration. -/
private theorem readStagedEntry_grows (hf : 0 < f ∧ f ≤ maxNumber)
    {fresh : Entry Sub key (.scalar t)} (hfresh : fresh.unknown = false)
    {s : Parse (Slot Sub (.map key (.scalar t) maxBuckets))} :
    Gives (readStagedEntry ops f fresh) s fun _ u => s.obj.Grows K
      (FieldKind.Diverts Sub f (.map key (.scalar t) maxBuckets)) true u.obj := by
  unfold readStagedEntry
  refine .after (Gives.idle_onReader _) fun size u hu => ?_
  refine .get_bind (.ite (fun _ => .failField _ _) fun _ => ?_)
  refine .after (.checkReader fun _ => rfl) fun _ v hv => ?_
  refine .after (Gives.idle_pushRecursion f) fun _ w hw => ?_
  refine .bind (Q := fun p x => fresh.ParsedFrom ops p.1 p.2 ∧ p.1.length ≤ usizeMax ∧
    x.obj = s.obj) (.releasing (.get_bind ?_)) ?_
  · refine .after (Gives.idle_onContext _) fun _ x hx => ?_
    refine .after (Gives.idle_onReader _) fun staged y hy => ?_
    let input : SliceReader :=
      { data := staged.val
        baseOffset := w.reader.position }
    have hsteady : Reader.Steady (.staged input y.reader) := trivial
    have hparse : Gives (inTemporary fresh (parseEntry ops))
        { y with reader := .staged input y.reader } fun p z =>
          fresh.ParsedFrom ops staged.val p.2 ∧ z.obj = y.obj := by
      refine (Gives.inTemporary fresh (parseEntry_finds hfresh rfl hsteady)).mono ?_
      rintro ⟨_, entry⟩ _ ⟨z, hz, rfl, rfl⟩
      exact ⟨hz, rfl⟩
    refine .bind (.through hparse) ?_
    rintro ⟨_, entry⟩ _ ⟨z, ⟨hfields, hz⟩, rfl⟩
    refine .pure ⟨hfields, ?_, ?_⟩
    · change staged.val.length ≤ usizeMax
      rw [staged.2]
      exact size.2
    · change z.obj = s.obj
      rw [hz, hy, hx, hw, hv, hu]
  · rintro ⟨staged, entry⟩ x ⟨⟨fields, hpayload, hafter⟩, hlen, hx⟩
    rw [← hx]
    refine .ite (fun hunknown => ?_) fun _ => ?_
    · refine (gains_onBound (MutableUnknownFieldSet.addLengthDelimited_appends hf hlen) ?_).mono
        fun _ _ hy => hy.grows
      refine ⟨fields, hafter.unknown.mp hunknown, ?_, ?_⟩
      · rw [hpayload]
        exact hlen
      · rw [hpayload]
    · refine Gives.zoom_valueLens fun _ _ _ _ e _ => ⟨?_, trivial⟩
      cases key with
      | scalar t h | string => trivial

end

section
variable {key : KeyKind} {value : ValueKind} {maxBuckets : Usize}

private theorem parseEntry_keeps (hops : ops.Keeps K) {s : Parse (Entry Sub key value)}
    (h : value.Nested K s.obj.value) :
    Gives (parseEntry ops) s fun _ u => value.Nested K u.obj.value := by
  unfold parseEntry
  refine (Gives.forEachField (J := fun u => value.Nested K u.obj.value) ?_ h).mono
    fun _ _ hu => hu.1
  intro u hu
  have hread (v : Parse (Entry Sub key value)) (hv : value.Nested K v.obj.value) :
      Gives (readMapMember ops 2 value v.obj.value) v fun a w =>
        value.Nested K a ∧ w.obj = v.obj := by
    cases value with
    | scalar t => exact (Gives.idle_onReader _).mono fun _ _ hw => ⟨trivial, hw⟩
    | string | bytes =>
      exact (Gives.idle (readLengthDelimited_quiet _)).mono fun _ _ hw => ⟨trivial, hw⟩
    | message id boxed => exact readMessagePartial_keeps hops hv
  have hkey (v : Parse (Entry Sub key value)) :
      Gives.Idle (readMapMember ops 1 key.value v.obj.key) v := by
    cases key with
    | scalar t h => exact Gives.idle_onReader _
    | string => exact Gives.idle (readLengthDelimited_quiet _)
  refine .after (Gives.idle_onReader _) fun tag v hv => ?_
  rw [← hv] at hu
  refine .ite (fun _ => ?_) fun _ => .ite (fun _ => ?_) fun _ => ?_
  · refine .get_bind (.after (hkey v) fun k w hw => .modifying _ ?_)
    rw [← hw] at hu
    exact hu
  · refine .get_bind (.bind (hread v hu) ?_)
    rintro a w ⟨ha, hw⟩
    rw [← hw] at hu
    exact .ite (fun _ => .modifying _ hu) fun _ => .modifying _ ha
  · refine (Gives.idle (skipField_quiet 0 _ _)).mono fun _ w hw => ?_
    rw [hw]
    exact hu

private theorem readNormalEntry_grows (hops : ops.Keeps K) {P : Tree → Prop}
    {fresh : Entry Sub key value} (hfresh : value.Nested K fresh.value)
    {s : Parse (Slot Sub (.map key value maxBuckets))} :
    Gives (readNormalEntry ops f fresh) s fun _ u => s.obj.Grows K P preserve u.obj := by
  unfold readNormalEntry
  refine .after (Gives.openNestedMessage f) fun size t ht => ?_
  rw [← ht]
  refine .bind (Gives.nestedMessage size (Q := fun p o => value.Nested K p.2.value ∧ o = t.obj)
    fun u hu => ?_) ?_
  · refine (Gives.inTemporary fresh (parseEntry_keeps hops hfresh)).mono ?_
    rintro ⟨_, entry⟩ _ ⟨v, hv, rfl, rfl⟩
    exact ⟨hv, hu⟩
  · rintro ⟨_, entry⟩ u ⟨hentry, hu⟩
    rw [← hu]
    refine .ite (fun _ => .pure ⟨id, .of_eq rfl⟩) fun _ => Gives.zoom_valueLens (.onBound ?_)
    intro _ b hb hold e he
    obtain ⟨_, _, k, _, hentries⟩ := (insertEntry_exits ops.copier entry _).ok hb
    rcases (hentries e).mp he with rfl | ⟨hmem, _⟩
    · refine ⟨?_, hentry⟩
      cases key with
      | scalar t h | string => trivial
    · exact hold e hmem

theorem readMap_grows (hops : ops.Keeps K) (w : WireType) (hf : 0 < f ∧ f ≤ maxNumber)
    {s : Parse (Slot Sub (.map key value maxBuckets))} :
    Gives (readMap ops preserve w f) s fun _ u =>
      s.obj.Grows K (FieldKind.Diverts Sub f (.map key value maxBuckets)) preserve u.obj := by
  refine .after (Gives.idle_onReader _) fun _ t ht => ?_
  refine .after (Gives.idle_onReader _) fun _ u hu => ?_
  refine .bind (Q := fun init v => value.Nested K init ∧ v.obj = s.obj) (.ofExcept ?_) ?_
  · intro init hinit
    refine ⟨?_, hu.trans ht⟩
    cases value with
    | scalar t | string | bytes => trivial
    | message id boxed => exact hops.create id init hinit
  rintro init v ⟨hinit, hv⟩
  rw [← hv]
  refine .ite (fun hc => ?_) fun _ => readNormalEntry_grows hops hinit
  obtain ⟨hclosed, rfl⟩ := hc
  cases value with
  | scalar t => exact readStagedEntry_grows hf rfl
  | string | bytes | message id boxed => cases hclosed

end

end

section
variable {ops : MessageOps Sub} {K : (id : ℕ) → Sub id → Prop} {preserve : Bool} {f : ℕ}

theorem FieldKind.parseCase_grows (hops : ops.Keeps K) (w : WireType) (hf : 0 < f ∧ f ≤ maxNumber)
    (kind : FieldKind) {s : Parse (Slot Sub kind)}
    (hold : FieldState.Nests (fun _ => K) kind s.obj.value) :
    Gives (kind.parseCase ops preserve w f) s fun _ u =>
      s.obj.Grows K (kind.Diverts Sub f) preserve u.obj := by
  cases kind with
  | implicit kind hd =>
    have hread : Gives (readSingleValue ops preserve Slot.unknownLens w f kind none) s fun a u =>
        Slot.unknownLens.Gains ((implicit kind hd).Diverts Sub f) preserve s.obj u.obj ∧
          ∀ v, a = some v → kind.Nested K v := by
      refine readSingleValue_keeps hops _ w hf kind none ?_ nofun
      rintro t rfl r hr
      exact hr
    refine .bind hread ?_
    rintro (_ | value) u ⟨hu, hvalue⟩
    · exact .pure hu.grows
    · refine .modifying _ (hu.grows.stored ?_)
      cases kind with
      | value kind => exact hvalue value rfl
      | byteArray max fixed => trivial
  | explicit kind required oneof =>
    have hsource (v : kind.Carrier Sub) (hv : s.obj.value = some v) : kind.Nested K v := by
      cases kind with
      | value kind => exact hold v hv
      | byteArray max fixed => trivial
    have hread : Gives (readSingleValue ops preserve Slot.unknownLens w f kind s.obj.value) s
        fun a u => Slot.unknownLens.Gains ((explicit kind required oneof).Diverts Sub f) preserve
          s.obj u.obj ∧ ∀ v, a = some v → kind.Nested K v := by
      refine readSingleValue_keeps hops _ w hf kind s.obj.value ?_ hsource
      rintro t rfl r hr
      exact hr
    refine .get_bind (.bind hread ?_)
    rintro (_ | value) u ⟨hu, hvalue⟩
    · exact .pure hu.grows
    · refine .modifying _ (hu.grows.stored ?_)
      cases kind with
      | value kind =>
        rintro _ ⟨⟩
        exact hvalue value rfl
      | byteArray max fixed => trivial
  | map key value maxBuckets => exact readMap_grows hops w hf
  | «repeated» kind packed storage =>
    cases kind with
    | scalar t =>
      refine .ite (fun _ => readPackedField_grows hf) fun _ => ?_
      refine readRepeatedField_grows hops w hf ?_
      rintro _ ⟨⟩ r hr
      exact hr
    | string | bytes | message id boxed => exact readRepeatedField_grows hops w hf nofun

end

/-- What the storage of a message holds: records that none of its fields takes. -/
abbrev MessageModel.Storable (M : MessageModel) (Sub : ℕ → Type) (preserve : Bool) :
    List UInt8 → Prop :=
  StoredBy (M.Stray Sub) preserve

namespace MessageData

variable {M : MessageModel} {ops : MessageOps Sub} {K : (id : ℕ) → Sub id → Prop}
variable {preserve : Bool} {s : Parse (MessageData M Sub)}

/-- What a field did to its slot, seen from the message. -/
private theorem holds_set (h : s.obj.Holds (fun _ => K) (M.Storable Sub preserve)) {i : M.Index}
    {P : Tree → Prop} (hP : ∀ r, P r → M.Stray Sub r) {slot : Slot Sub (M.kind i)}
    (hslot : ((fieldLens i).get s.obj).Grows K P preserve slot) :
    ((fieldLens i).set slot s.obj).Holds (fun _ => K) (M.Storable Sub preserve) := by
  have hnested := h.nested i
  obtain ⟨bs, hunknown, hbs⟩ := hslot.unknown
  have hfield := holds_setField h (hslot.nested hnested)
  refine ⟨hfield.nested, ?_⟩
  change M.Storable Sub preserve slot.unknown.val
  rw [hunknown]
  exact h.stored.append (hbs.mono hP)

theorem mergeFieldFrom_keeps (hops : ops.Keeps K) (w : WireType) {f : ℕ}
    (hf : 0 < f ∧ f ≤ maxNumber) (h : s.obj.Holds (fun _ => K) (M.Storable Sub preserve)) :
    Gives (mergeFieldFrom ops preserve f w) s fun _ t =>
      t.obj.Holds (fun _ => K) (M.Storable Sub preserve) := by
  have hrefused (r : Tree)
      (hr : r.number = f ∧ r.code = w.code ∧ ∃ d, Body d r.number r.code r.body r)
      (hw : ∀ i, M.number i = f → (M.kind i).allows w = false) : M.Stray Sub r := by
    obtain ⟨hnumber, hcode, d, hbody⟩ := hr
    refine .refused w hcode.symm ?_ hbody ?_
    · rw [hnumber]
      exact hf
    · rw [hnumber]
      exact hw
  unfold mergeFieldFrom
  cases hfind : M.find f with
  | none =>
    refine (handleUnknownField_gains w hf.2).mono ?_
    rintro _ t ⟨storage, ht, bs, hstorage, hbs⟩
    rw [ht]
    refine ⟨h.nested, ?_⟩
    change M.Storable Sub preserve storage.val
    rw [hstorage]
    refine h.stored.append (hbs.mono fun r hr => hrefused r hr fun i hi => ?_)
    rw [M.find_eq_some.mpr hi] at hfind
    cases hfind
  | some i =>
    have hi := M.find_eq_some.mp hfind
    dsimp only
    split
    · refine (Gives.zoom (fieldLens i) ((M.kind i).parseCase_grows hops w hf (h.nested i))).mono ?_
      rintro _ _ ⟨u, hu, rfl⟩
      exact holds_set h (fun r hr => .diverted i (hi ▸ hr)) hu
    · next hallows =>
      refine (Gives.zoom (fieldLens i) (handleUnknownField_gains w hf.2)).mono ?_
      rintro _ _ ⟨u, hu, rfl⟩
      refine holds_set h (fun r hr => hrefused r hr fun j hj => ?_) hu.grows
      rw [M.number_injective (hj.trans hi.symm), ← Bool.not_eq_true]
      exact hallows

theorem mergeFieldsFrom_keeps (hops : ops.Keeps K)
    (h : s.obj.Holds (fun _ => K) (M.Storable Sub preserve)) :
    Gives (mergeFieldsFrom ops preserve) s fun _ t =>
      t.obj.Holds (fun _ => K) (M.Storable Sub preserve) := by
  refine (Gives.forEachField (J := fun t => t.obj.Holds (fun _ => K) (M.Storable Sub preserve))
    ?_ h).mono fun _ _ ht => ht.1
  intro t ht
  refine .bind (Q := fun tag u => (0 < tag.fieldNumber ∧ tag.fieldNumber ≤ maxNumber) ∧
    u.obj = t.obj) (.onReader fun tag r hr => ?_) ?_
  · obtain ⟨_, _, _, hkey, _⟩ := readTag_eq_ok.mp hr
    exact ⟨⟨hkey.2.1, hkey.2.2.1⟩, rfl⟩
  · rintro tag u ⟨hf, hu⟩
    rw [← hu] at ht
    exact .withField _ (mergeFieldFrom_keeps hops tag.wireType hf ht)

end MessageData

namespace Message

variable (S : Schema) (preserve : Bool)

/-- The storages of a message and of the messages in it hold records that no field takes. -/
def Storable : (levels id : ℕ) → Message S levels id → Prop
  | 0, _, m => m.elim
  | levels + 1, id, m => MessageData.Holds (fun _ => Storable levels)
      ((S id).Storable (Message S levels) preserve) m

theorem ops_keeps (levels : ℕ) : (ops S preserve levels).Keeps (Storable S preserve levels) := by
  induction levels with
  | zero => exact ⟨fun _ m => m.elim, fun _ m => m.elim, fun _ s => s.obj.elim⟩
  | succ levels ih =>
    refine ⟨?_, ?_, ?_⟩
    · rintro id _ ⟨⟩
      exact MessageData.holds_empty .nil
    · intro id source ctx m ctx' hcopy hsource
      have hnil : (S id).Storable (Message S levels) preserve [] := .nil
      have hcopies := MessageData.copyFromInPlace_allocates (fun _ => ih.copier) hnil preserve
        source ctx
      exact (hcopies.ok hcopy).2 hsource
    · exact fun id s hs => MessageData.mergeFieldsFrom_keeps ih hs

end Message

end Protocyte
