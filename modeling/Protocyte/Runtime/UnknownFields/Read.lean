import Protocyte.Runtime.UnknownFields.Storage

/-! Reading an unknown field into storage, in canonical form. -/
namespace Protocyte
open Foundation.Computation Foundation.Wire
open Foundation.LittleEndian (ofBytes toBytes_ofBytes)

/-- `pop_recursion(ctx)` on a failing exit. -/
def popOnError {O α : Type} (x : ParseM O α) : ParseM O α := fun s =>
  match x s with
  | .ok a s' => .ok a s'
  | .error e s' => .error e { s' with ctx := s'.ctx.popRecursion }

/-- The function's `fail`: the storage is cut back to its old size, and the error names the field
and the position reached. -/
def failing (fieldNumber : ℕ) (x : ParseM ByteVec Unit) : ParseM ByteVec Unit := fun s =>
  match x s with
  | .ok a s' => .ok a s'
  | .error e s' => match onBound (Vec.resizeForOverwrite 0 s.obj.size) s' with
    | .ok _ t | .error _ t => .error { e with offset := s'.reader.position, fieldNumber } t

/-- The value of a field, after its tag. -/
def readUnknownValue (readGroup : ℕ → ParseM ByteVec Unit) (wireType : WireType)
    (fieldNumber : ℕ) : ParseM ByteVec Unit :=
  match wireType with
  | .varint => do
    let value ← onReader readVarint
    onBound (writeVarint value)
  | .i64 => do
    let value ← onReader (readFixed 8)
    onBound (writeFixed 8 value)
  | .len => do
    let size ← onReader readLengthDelimitedSize
    onBound (writeVarint size)
    UnknownFieldWriter.readFrom size
  | .sgroup => readGroup fieldNumber
  | .egroup => failField .invalidWireType fieldNumber
  | .i32 => do
    let value ← onReader (readFixed 4)
    onBound (writeFixed 4 value)
  | .reserved6 | .reserved7 => failField .invalidWireType fieldNumber

/-- `read_unknown_field`, given what reads a group after its tag. -/
def readUnknownFieldWith (readGroup : ℕ → ParseM ByteVec Unit) (wireType : WireType)
    (fieldNumber : ℕ) : ParseM ByteVec Unit :=
  failing fieldNumber do
    onBound (writeTag fieldNumber wireType)
    readUnknownValue readGroup wireType fieldNumber

/-- The loop over a group's fields. Every iteration reads a tag. -/
def readGroupLoop : ℕ → ℕ → ParseM ByteVec Unit
  | 0, _ => diverged
  | n + 1, fieldNumber => do
    let nestedTag ← popOnError (onReader readTag)
    if nestedTag.wireType = .egroup then
      popRecursion
      if nestedTag.fieldNumber ≠ fieldNumber then
        failField .invalidWireType nestedTag.fieldNumber
      else
        onBound (writeTag nestedTag.fieldNumber .egroup)
    else
      popOnError <|
        readUnknownFieldWith
          (fun fieldNumber => do
            pushRecursion fieldNumber
            readGroupLoop n fieldNumber)
          nestedTag.wireType nestedTag.fieldNumber
      readGroupLoop n fieldNumber

def readGroupWithin (bound fieldNumber : ℕ) : ParseM ByteVec Unit := do
  pushRecursion fieldNumber
  readGroupLoop bound fieldNumber

def readUnknownField (wireType : WireType) (fieldNumber : ℕ) : ParseM ByteVec Unit := fun s =>
  readUnknownFieldWith (readGroupWithin (s.reader.rest.length + 1)) wireType fieldNumber s

theorem readGroupLoop_succ (n f : ℕ) : readGroupLoop (n + 1) f = (do
    let nestedTag ← popOnError (onReader readTag)
    if nestedTag.wireType = .egroup then
      popRecursion
      if nestedTag.fieldNumber ≠ f then
        failField .invalidWireType nestedTag.fieldNumber
      else
        onBound (writeTag nestedTag.fieldNumber .egroup)
    else
      popOnError (readUnknownFieldWith (readGroupWithin n) nestedTag.wireType nestedTag.fieldNumber)
      readGroupLoop n f) := rfl

/-- The parse `s'` is `s` after `k` bytes, with `cs` appended to the storage. -/
structure Stored (s s' : Parse ByteVec) (k : ℕ) (cs : List UInt8) : Prop where
  reader : s'.reader = s.reader.advance k
  items : s'.obj.items = s.obj.items ++ cs
  ctx : s.ctx.Ran s'.ctx
  within : s.obj.size ≤ s.ctx.limits.maxUnknownFieldBytes →
    s'.obj.size ≤ s.ctx.limits.maxUnknownFieldBytes

/-- The storage of `s'` still starts with the one of `s`. -/
structure Extended (s s' : Parse ByteVec) : Prop where
  items : s.obj.items <+: s'.obj.items
  ctx : s.ctx.Balanced s'.ctx

theorem Stored.refl (s : Parse ByteVec) : Stored s s 0 [] :=
  ⟨(s.reader.advance_zero).symm, by simp, .refl _, id⟩

theorem Stored.trans {s t u : Parse ByteVec} {j k : ℕ} {bs cs : List UInt8} (h : Stored s t j bs)
    (h' : Stored t u k cs) : Stored s u (j + k) (bs ++ cs) :=
  ⟨by rw [h'.reader, h.reader, Reader.advance_advance],
    by rw [h'.items, h.items, List.append_assoc], h.ctx.trans h'.ctx, fun hs => by
      have := h'.within
      rw [h.ctx.balanced.limits] at this
      exact this (h.within hs)⟩

theorem Stored.extended {s t : Parse ByteVec} {k : ℕ} {cs : List UInt8} (h : Stored s t k cs) :
    Extended s t :=
  ⟨⟨cs, h.items.symm⟩, h.ctx.balanced⟩

theorem Extended.refl (s : Parse ByteVec) : Extended s s := ⟨List.prefix_refl _, .refl _⟩

theorem Extended.trans {s t u : Parse ByteVec} (h : Extended s t) (h' : Extended t u) :
    Extended s u :=
  ⟨h.items.trans h'.items, h.ctx.trans h'.ctx⟩

theorem Stored.levels {s t : Parse ByteVec} {k : ℕ} {cs : List UInt8} (h : Stored s t k cs) :
    t.levels = s.levels := by
  rw [Parse.levels, Parse.levels, h.ctx.balanced.limits, h.ctx.balanced.recursionDepth]

/-- The room that is left. -/
theorem Stored.room {s t : Parse ByteVec} {k n : ℕ} {cs : List UInt8} (h : Stored s t k cs)
    (hr : UnknownFieldWriter.HasRoom s.toBound (cs.length + n)) :
    UnknownFieldWriter.HasRoom t.toBound n := by
  refine ⟨h.ctx.alwaysGrants hr.1, ?_⟩
  rw [h.ctx.balanced.limits, Vec.size, h.items, List.length_append]
  exact Nat.add_assoc _ _ _ ▸ hr.2

theorem onReader_exits {α : Type} (x : ReaderM α) (s : Parse ByteVec) : Exits (onReader x s)
    (fun a s' => ∃ r, x s.reader = .ok a r ∧ s' = { s with reader := r })
    (fun _ s' => Extended s s') := by
  refine Exits.intro (fun a s' h => onReader_eq_ok.mp h) fun e s' h => ?_
  obtain ⟨r, -, rfl⟩ := onReader_eq_error.mp h
  exact ⟨List.prefix_refl _, .refl _⟩

/-- A read stores nothing. -/
theorem stored_read (s : Parse ByteVec) (k : ℕ) :
    Stored s { s with reader := s.reader.advance k } k [] :=
  ⟨rfl, by simp, .refl _, id⟩

theorem onBound_writes {x : BoundM ByteVec Unit} {cs : List UInt8} (hx : Writes x cs)
    (s : Parse ByteVec) : Exits (onBound x s) (fun _ s' => Stored s s' 0 cs)
      (fun _ s' => Extended s s' ∧ ¬ UnknownFieldWriter.HasRoom s.toBound cs.length) := by
  refine Exits.intro (fun a s' h => ?_) fun e s' h => ?_
  · obtain ⟨b, hb, rfl⟩ := onBound_eq_ok.mp h
    obtain ⟨hi, hs, -⟩ := (hx s.toBound).ok hb
    exact ⟨(s.reader.advance_zero).symm, hi, hs.ctx.ran, hs.within⟩
  · obtain ⟨b, hb, rfl⟩ := onBound_eq_error.mp h
    obtain ⟨⟨bs, hi⟩, hs, hr, -⟩ := (hx s.toBound).error hb
    exact ⟨⟨⟨bs, hi.symm⟩, hs.ctx.balanced⟩, hr⟩

private theorem overwrite_fill {v : ByteVec} {xs bs fill : List UInt8}
    (hv : v.items = xs ++ fill) (hl : fill.length = bs.length) :
    (v.overwrite xs.length bs).items = xs ++ bs := by
  have hlen : (xs ++ bs).length = v.size := by rw [Vec.size, hv]; simp [hl]
  have hd : (xs ++ fill).drop (xs.length + bs.length) = [] := by
    rw [List.drop_eq_nil_iff]; simp [hl]
  simp only [Vec.overwrite, hv, List.take_left, hd, List.append_nil]
  exact List.take_of_length_le (Nat.le_of_eq hlen)

theorem readFrom_exits (n : ℕ) (s : Parse ByteVec) : Exits (UnknownFieldWriter.readFrom n s)
    (fun _ s' => ∃ bs xs, s.reader.rest = bs ++ xs ∧ bs.length = n ∧ Stored s s' n bs)
    (fun _ s' => Extended s s' ∧
      ¬ (UnknownFieldWriter.HasRoom s.toBound n ∧ n ≤ s.reader.rest.length)) := by
  unfold UnknownFieldWriter.readFrom
  by_cases hc : UnknownFieldWriter.canWrite n s.toBound = true
  · simp only [hc, Bool.not_true, Bool.false_eq_true, if_false]
    have hroom := (UnknownFieldWriter.canWrite_iff n s.toBound).mp hc
    have hmax := Nat.le_trans hroom s.ctx.limits.maxUnknownFieldBytes_le
    by_cases h0 : n = 0
    · rw [if_pos h0, h0]
      exact ⟨[], s.reader.rest, rfl, rfl, .refl s⟩
    rw [if_neg h0]
    have hresize := Vec.resizeForOverwrite_exits (0 : UInt8) (s.obj.size + n) s.toBound
    cases hb : onBound (Vec.resizeForOverwrite 0 (s.obj.size + n)) s with
    | error e t =>
      obtain ⟨b, hb', rfl⟩ := onBound_eq_error.mp hb
      obtain ⟨hs, ho, hr⟩ := hresize.error hb'
      refine ⟨⟨by simp only [ho]; exact List.prefix_refl _, hs.balanced⟩, fun hn => ?_⟩
      exact (hr.not_alwaysGrants hmax hmax).2 hn.1.1
    | ok a t =>
      obtain ⟨b, hb', rfl⟩ := onBound_eq_ok.mp hb
      obtain ⟨hs, hi⟩ := hresize.ok hb'
      have hi' : b.obj.items = s.obj.items ++ List.replicate n 0 := by
        rw [hi, List.take_of_length_le (Nat.le_add_right _ _), Nat.add_sub_cancel_left]
      simp only
      cases hread : onReader (Reader.read n) { s with toBound := b } with
      | ok bytes u =>
        obtain ⟨r, hr, rfl⟩ := onReader_eq_ok.mp hread
        obtain ⟨hn, rfl, rfl⟩ := Reader.read_eq_ok.mp hr
        have hl : (s.reader.rest.take n).length = n := by simp [hn]
        have hitems := overwrite_fill hi' (by simp [hl] : _ = (s.reader.rest.take n).length)
        refine ⟨_, s.reader.rest.drop n, (List.take_append_drop n _).symm, hl, rfl, hitems, hs.ran,
          fun _ => ?_⟩
        simp only [Vec.size, hitems, List.length_append, hl]
        exact hroom
      | error e u =>
        obtain ⟨r, hr, rfl⟩ := onReader_eq_error.mp hread
        have hle : s.obj.size ≤ b.obj.size := by simp [Vec.size, hi']
        have hback := Vec.resizeForOverwrite_shrink (0 : UInt8) (s := b) hle
        simp only [onBound, hback]
        refine ⟨⟨?_, hs.balanced⟩, fun hn => ?_⟩
        · simp [hi', Vec.size]
        · simp only [Reader.read_eq, if_pos hn.2] at hr
          cases hr
  · simp only [hc, Bool.not_false, if_true]
    exact ⟨.refl s, fun hn => hc ((UnknownFieldWriter.canWrite_iff n _).mpr hn.1.2)⟩

private theorem failing_exits {x : ParseM ByteVec Unit} {s : Parse ByteVec} {f : ℕ}
    {Q : Unit → Parse ByteVec → Prop} (h : Exits (x s) Q (fun _ s' => Extended s s')) :
    Exits (failing f x s) Q
      (fun _ s' => s'.obj.items = s.obj.items ∧ s.ctx.Balanced s'.ctx) := by
  unfold failing
  cases hx : x s with
  | ok a s' => exact h.ok hx
  | error e s' =>
    obtain ⟨⟨bs, hi⟩, hb⟩ := h.error hx
    have hle : s.obj.size ≤ s'.obj.size := by simp [Vec.size, ← hi]
    have hback := Vec.resizeForOverwrite_shrink (0 : UInt8) (s := s'.toBound) hle
    simp only [onBound, hback]
    refine ⟨?_, hb⟩
    simp [← hi, Vec.size]

/-- A body of the grammar has been read and its canonical form stored. -/
def Kept (s s' : Parse ByteVec) (f c : ℕ) (stored : Tree → List UInt8) : Prop :=
  ∃ bs xs t, s.reader.rest = bs ++ xs ∧ Body s.levels f c bs t ∧ Stored s s' bs.length (stored t)

def GroupKept (s s' : Parse ByteVec) (f : ℕ) : Prop :=
  ∃ bs xs ts, s.reader.rest = bs ++ xs ∧ 0 < s.levels ∧ Members (Body (s.levels - 1)) f bs ts ∧
    Stored s s' bs.length (encodeAll ts ++ key f 4)

/-- A value read as the word `bs` and written back as `cs`. -/
private theorem read_write_exits {α : Type} {x : ReaderM α} {y : α → BoundM ByteVec Unit}
    {W : List UInt8 → α → Prop} {enc : α → List UInt8} {s : Parse ByteVec}
    (hx : ∀ a r, x s.reader = .ok a r →
      ∃ bs xs, s.reader.rest = bs ++ xs ∧ W bs a ∧ r = s.reader.advance bs.length)
    (hy : ∀ bs a, W bs a → Writes (y a) (enc a)) :
    Exits ((do let a ← onReader x; onBound (y a) : ParseM ByteVec Unit) s)
      (fun _ s' => ∃ bs xs a, s.reader.rest = bs ++ xs ∧ W bs a ∧ Stored s s' bs.length (enc a))
      (fun _ s' => Extended s s') := by
  refine Exits.bind (onReader_exits x s) ?_
  rintro a t ⟨r, hr, rfl⟩
  obtain ⟨bs, xs, hbs, hw, rfl⟩ := hx a r hr
  have hread := stored_read s bs.length
  refine (onBound_writes (hy bs a hw) _).mono (fun _ s' h => ?_) (fun _ s' h => ?_)
  · exact ⟨bs, xs, a, hbs, hw, hread.trans h⟩
  · exact hread.extended.trans h.1

private theorem readUnknownValue_exits {g : ℕ → ParseM ByteVec Unit} {s : Parse ByteVec}
    (w : WireType) (f : ℕ)
    (hg : Exits (g f s) (fun _ s' => GroupKept s s' f) (fun _ s' => Extended s s')) :
    Exits (readUnknownValue g w f s) (fun _ s' => Kept s s' f w.code Tree.body)
      (fun _ s' => Extended s s') := by
  have fixed : ∀ k, Exits
      ((do let v ← onReader (readFixed k); onBound (writeFixed k v) : ParseM ByteVec Unit) s)
      (fun _ s' => ∃ bs xs v, s.reader.rest = bs ++ xs ∧ (bs.length = k ∧ v = ofBytes bs) ∧
        Stored s s' bs.length (Foundation.LittleEndian.toBytes k v))
      (fun _ s' => Extended s s') := by
    intro k
    refine read_write_exits (fun v r hv => ?_) (fun bs v _ => writes_fixed k v)
    obtain ⟨bs, xs, hbs, rfl, rfl, rfl⟩ := readFixed_eq_ok.mp hv
    exact ⟨bs, xs, hbs, ⟨rfl, rfl⟩, rfl⟩
  cases w with
  | varint =>
    refine (read_write_exits (W := Varint) (fun v r hv => ?_)
      (fun bs v hv => writes_varint hv.2.2)).mono ?_ (fun _ _ h => h)
    · exact readVarint_eq_ok.mp hv
    · rintro - s' ⟨bs, xs, v, hbs, hv, hs⟩
      exact ⟨bs, xs, .varint f v, hbs, (Leaf.varint hv).body _, hs⟩
  | i64 =>
    refine (fixed 8).mono ?_ (fun _ _ h => h)
    rintro - s' ⟨bs, xs, v, hbs, ⟨hl, rfl⟩, hs⟩
    exact ⟨bs, xs, .fixed64 f (ofBytes bs), hbs, (Leaf.fixed64 hl).body _, hs⟩
  | len =>
    refine Exits.bind (onReader_exits readLengthDelimitedSize s) ?_
    rintro n t ⟨r, hr, rfl⟩
    obtain ⟨ls, xs, hls, hw, rfl⟩ := readLengthDelimitedSize_eq_ok.mp hr
    have hread := stored_read s ls.length
    refine Exits.bind ((onBound_writes (writes_varint hw.2.2) _).mono (fun _ _ h => h)
      (fun _ s' h => hread.extended.trans h.1)) fun _ t ht => ?_
    have htags := hread.trans ht
    refine (readFrom_exits n t).mono ?_ (fun _ s' h => htags.extended.trans h.1)
    rintro - s' ⟨bs, ys, hbs, rfl, hs⟩
    rw [htags.reader, Reader.rest_advance, Nat.add_zero, hls, List.drop_left] at hbs
    subst hbs
    refine ⟨ls ++ bs, ys, .bytes f bs, by rw [hls, List.append_assoc], (Leaf.bytes hw).body _, ?_⟩
    simpa [Tree.body] using htags.trans hs
  | sgroup =>
    refine hg.mono ?_ (fun _ _ h => h)
    rintro - s' ⟨bs, xs, ts, hbs, hpos, hm, hs⟩
    obtain ⟨d, hd⟩ : ∃ d, s.levels = d + 1 := ⟨s.levels - 1, by omega⟩
    rw [hd, Nat.add_sub_cancel] at hm
    refine ⟨bs, xs, .group f ts, hbs, hd ▸ Or.inr ⟨rfl, ts, rfl, hm⟩, ?_⟩
    simpa only [Tree.body] using hs
  | i32 =>
    refine (fixed 4).mono ?_ (fun _ _ h => h)
    rintro - s' ⟨bs, xs, v, hbs, ⟨hl, rfl⟩, hs⟩
    exact ⟨bs, xs, .fixed32 f (ofBytes bs), hbs, (Leaf.fixed32 hl).body _, hs⟩
  | egroup => exact .refl s
  | reserved6 => exact .refl s
  | reserved7 => exact .refl s

/-- Both exits of reading a field. -/
def FieldExits (x : ParseM ByteVec Unit) (w : WireType) (f : ℕ) (s : Parse ByteVec) : Prop :=
  Exits (x s) (fun _ s' => Kept s s' f w.code Tree.encode)
    (fun _ s' => s'.obj.items = s.obj.items ∧ s.ctx.Balanced s'.ctx)

private theorem readUnknownFieldWith_exits {g : ℕ → ParseM ByteVec Unit} {s : Parse ByteVec}
    (w : WireType) {f : ℕ} (hf : f ≤ maxNumber)
    (hg : ∀ t, Stored s t 0 (key f w.code) →
      Exits (g f t) (fun _ t' => GroupKept t t' f) (fun _ t' => Extended t t')) :
    FieldExits (readUnknownFieldWith g w f) w f s := by
  refine failing_exits (Exits.bind ((onBound_writes (writes_tag w hf) s).mono (fun _ _ h => h)
    (fun _ s' h => h.1)) fun _ t ht => ?_)
  refine (readUnknownValue_exits w f (hg t ht)).mono ?_ (fun _ s' h => ht.extended.trans h)
  rintro - s' ⟨bs, xs, u, hbs, hu, hs⟩
  rw [ht.reader, Reader.advance_zero] at hbs
  rw [ht.levels] at hu
  obtain ⟨hn, hc⟩ := (body_canonical _).number_code hu
  refine ⟨bs, xs, u, hbs, hu, ?_⟩
  rw [Tree.encode, hn, hc]
  simpa using ht.trans hs

private theorem popOnError_exits {α : Type} {x : ParseM ByteVec α} {s : Parse ByteVec}
    {Q : α → Parse ByteVec → Prop} {E : Error → Parse ByteVec → Prop} (h : Exits (x s) Q E) :
    Exits (popOnError x s) Q
      (fun e s' => ∃ t, E e t ∧ s' = { t with ctx := t.ctx.popRecursion }) := by
  unfold popOnError
  cases hx : x s with
  | ok a s' => exact h.ok hx
  | error e t => exact ⟨t, h.error hx, rfl⟩

/-- Leaving the group: the level is taken back. -/
private theorem Stored.pop {s t : Parse ByteVec} {k : ℕ} {cs : List UInt8}
    (h : Stored s.descended t k cs) (hd : s.ctx.recursionDepth < s.ctx.limits.maxRecursionDepth) :
    Stored s { t with ctx := t.ctx.popRecursion } k cs :=
  ⟨h.reader, h.items, Context.Ran.pop h.ctx hd, h.within⟩

private theorem Extended.pop {s t : Parse ByteVec} (h : Extended s.descended t) :
    Extended s { t with ctx := t.ctx.popRecursion } :=
  ⟨h.items, Context.Balanced.pop h.ctx⟩

/-- The loop in the group opened at `s`, after `k` bytes of it. -/
private def LoopExits (n : ℕ) : Prop :=
  ∀ (f k : ℕ) (cs : List UInt8) (s t : Parse ByteVec), f ≤ maxNumber →
    s.ctx.recursionDepth < s.ctx.limits.maxRecursionDepth → Stored s.descended t k cs →
    t.reader.rest.length < n →
    Exits (readGroupLoop n f t)
      (fun _ t' => ∃ bs xs ts, t.reader.rest = bs ++ xs ∧ Members (Body (s.levels - 1)) f bs ts ∧
        Stored s t' (k + bs.length) (cs ++ (encodeAll ts ++ key f 4)))
      (fun _ t' => Extended s t')

private theorem readGroupWithin_exits {n : ℕ} (hn : LoopExits n) {f : ℕ} (hf : f ≤ maxNumber)
    {s : Parse ByteVec} (hs : s.reader.rest.length < n) :
    Exits (readGroupWithin n f s) (fun _ s' => GroupKept s s' f) (fun _ s' => Extended s s') := by
  unfold readGroupWithin
  rw [bind_apply, pushRecursion]
  by_cases hd : s.ctx.recursionDepth ≥ s.ctx.limits.maxRecursionDepth
  · rw [if_pos hd]
    exact ⟨List.prefix_refl _, Context.balanced_refused _⟩
  · rw [if_neg hd]
    have hlt := Nat.lt_of_not_le hd
    refine (hn f 0 [] s s.descended hf hlt (.refl _) hs).mono ?_ (fun _ _ h => h)
    rintro - s' ⟨bs, xs, ts, hbs, hm, hst⟩
    rw [Nat.zero_add] at hst
    exact ⟨bs, xs, ts, hbs, Nat.sub_pos_of_lt hlt, hm, hst⟩

private theorem loopExits_succ {n : ℕ} (ih : LoopExits n) : LoopExits (n + 1) := by
  intro f k cs s t hf hd ht hn
  have hlevels : t.levels = s.levels - 1 := by
    have := Parse.levels_descended (Nat.sub_pos_of_lt hd)
    rw [ht.levels]
    omega
  rw [readGroupLoop_succ]
  refine Exits.bind ((popOnError_exits (onReader_exits readTag t)).mono (fun _ _ h => h) ?_) ?_
  · rintro e _ ⟨u, hu, rfl⟩
    exact (ht.extended.trans hu).pop
  rintro ⟨g, w⟩ u ⟨r, hr, rfl⟩
  obtain ⟨ks, xs, hks, hkey, rfl⟩ := readTag_eq_ok.mp hr
  have hpos := hkey.length_pos
  have hl := congrArg List.length hks
  rw [List.length_append] at hl
  have hu := ht.trans (stored_read t ks.length)
  rw [List.append_nil] at hu
  refine Exits.ite (fun he => ?_) (fun he => ?_)
  · rw [bind_of_ok (popRecursion_apply _)]
    refine Exits.ite (fun _ => hu.extended.pop) (fun hfg => ?_)
    obtain rfl : g = f := Decidable.not_not.mp hfg
    obtain rfl : w = .egroup := he
    refine (onBound_writes (writes_tag .egroup hf) _).mono ?_
      (fun _ _ h => hu.extended.pop.trans h.1)
    intro _ s' hs'
    refine ⟨ks, xs, [], hks, .close hkey, ?_⟩
    simpa [WireType.code] using (hu.pop hd).trans hs'
  · have hrest : (t.reader.advance ks.length).rest = xs := by simp [hks]
    refine Exits.bind ((popOnError_exits (readUnknownFieldWith_exits w hkey.2.2.1 ?_)).mono
      (fun _ _ h => h) ?_) ?_
    · intro v hv
      refine readGroupWithin_exits ih hkey.2.2.1 ?_
      rw [hv.reader, Reader.advance_zero]
      simp only [hrest]
      omega
    · rintro e _ ⟨v, ⟨hi, hb⟩, rfl⟩
      exact Extended.pop ⟨hu.extended.items.trans (hi ▸ List.prefix_refl _),
        hu.ctx.balanced.trans hb⟩
    · rintro - v ⟨bs, ys, tree, hbs, hb, hv⟩
      simp only [hrest] at hbs
      subst hbs
      have hv' := hu.trans hv
      have hvrest : v.reader.rest = ys := by
        rw [hv.reader]
        simp only [Reader.rest_advance, hks, List.drop_left]
      refine (ih f _ _ s v hf hd hv' (by rw [hvrest]; simp at hl; omega)).mono ?_ (fun _ _ h => h)
      rintro - s' ⟨ds, zs, ts, hds, hm, hs'⟩
      rw [hvrest] at hds
      subst hds
      refine ⟨ks ++ (bs ++ ds), zs, tree :: ts, by rw [hks]; simp, .member hkey ?_ hm, ?_⟩
      · rw [← hlevels]
        exact hb
      · simpa [encodeAll_cons, Nat.add_assoc] using hs'

private theorem loopExits (n : ℕ) : LoopExits n := by
  induction n with
  | zero => intro f k cs s t _ _ _ hn; omega
  | succ n ih => exact loopExits_succ ih

theorem readUnknownFieldWithin_exits {n : ℕ} (w : WireType) {f : ℕ} (hf : f ≤ maxNumber)
    {s : Parse ByteVec} (hs : s.reader.rest.length < n) :
    FieldExits (readUnknownFieldWith (readGroupWithin n) w f) w f s :=
  readUnknownFieldWith_exits w hf fun t ht =>
    readGroupWithin_exits (loopExits n) hf (by rw [ht.reader, Reader.advance_zero]; exact hs)

/-- What is stored is the canonical form of the field read; a failure stores nothing. -/
theorem readUnknownField_exits (w : WireType) {f : ℕ} (hf : f ≤ maxNumber) (s : Parse ByteVec) :
    FieldExits (readUnknownField w f) w f s :=
  readUnknownFieldWithin_exits w hf (Nat.lt_succ_self _)

open UnknownFieldWriter (HasRoom)

private theorem onBound_room {x : BoundM ByteVec Unit} {cs : List UInt8} (hx : Writes x cs)
    {s : Parse ByteVec} (hr : HasRoom s.toBound cs.length) :
    ∃ s', onBound x s = .ok () s' ∧ Stored s s' 0 cs := by
  have h := onBound_writes hx s
  cases ho : onBound x s with
  | ok a s' => exact ⟨s', rfl, h.ok ho⟩
  | error e s' => exact absurd hr (h.error ho).2

private theorem failing_of_ok {x : ParseM ByteVec Unit} {s s' : Parse ByteVec} {f : ℕ}
    (h : x s = .ok () s') : failing f x s = .ok () s' := by
  rw [failing, h]

private theorem popOnError_of_ok {α : Type} {x : ParseM ByteVec α} {s s' : Parse ByteVec} {a : α}
    (h : x s = .ok a s') : popOnError x s = .ok a s' := by
  rw [popOnError, h]

/-- What the room must hold is fixed by the bytes that are read. -/
theorem Kept.unique {s s' : Parse ByteVec} {f c d : ℕ} {bs xs : List UInt8} {t : Tree}
    {stored : Tree → List UInt8} (h : Kept s s' f c stored) (hr : s.reader.rest = bs ++ xs)
    (hd : d ≤ s.levels) (hb : Body d f c bs t) : Stored s s' bs.length (stored t) := by
  obtain ⟨cs, ys, u, hcs, hu, hs⟩ := h
  obtain ⟨rfl, rfl⟩ := (body_canonical _).unique (hb.mono hd) hu (hr.symm.trans hcs)
  exact hs

private theorem readUnknownValue_leaf {g : ℕ → ParseM ByteVec Unit} {w : WireType} {f : ℕ}
    {bs xs : List UInt8} {t : Tree} {s : Parse ByteVec} (hr : s.reader.rest = bs ++ xs)
    (h : Leaf f w.code bs t) (hroom : HasRoom s.toBound t.body.length) :
    ∃ s', readUnknownValue g w f s = .ok () s' := by
  -- reading stores nothing, so the room for the value is still there
  have value : ∀ {α : Type} {x : ReaderM α} {y : α → BoundM ByteVec Unit} {a : α} {k : ℕ},
      x s.reader = .ok a (s.reader.advance k) → Writes (y a) t.body →
      ∃ s', ((do let a ← onReader x; onBound (y a) : ParseM ByteVec Unit) s) = .ok () s' := by
    intro α x y a k hx hy
    obtain ⟨s', hs', -⟩ := onBound_room (s := { s with reader := s.reader.advance k }) hy hroom
    exact ⟨s', (bind_of_ok (onReader_eq_ok.mpr ⟨_, hx, rfl⟩)).trans hs'⟩
  have fixed : ∀ k, bs.length = k → t.body = Foundation.LittleEndian.toBytes k (ofBytes bs) →
      ∃ s', ((do let v ← onReader (readFixed k); onBound (writeFixed k v) : ParseM ByteVec Unit) s)
        = .ok () s' := by
    intro k hk ht
    exact value (readFixed_eq_ok.mpr ⟨bs, xs, hr, hk, rfl, rfl⟩) (ht ▸ writes_fixed k _)
  generalize hc : w.code = c at h
  cases h with
  | varint hv =>
    obtain rfl : w = .varint := WireType.code_injective hc
    exact value (readVarint_of_varint hv hr) (writes_varint hv.2.2)
  | fixed64 hl =>
    obtain rfl : w = .i64 := WireType.code_injective hc
    exact fixed 8 hl rfl
  | @bytes ls payload hv =>
    obtain rfl : w = .len := WireType.code_injective hc
    rw [List.append_assoc] at hr
    simp only [Tree.body, List.length_append] at hroom
    have hread := stored_read s ls.length
    have hlen : HasRoom s.toBound (Foundation.Base128.encode payload.length).length :=
      ⟨hroom.1, by have := hroom.2; omega⟩
    obtain ⟨t, ht, hst⟩ := onBound_room (s := { s with reader := s.reader.advance ls.length })
      (writes_varint hv.2.2) hlen
    have htag := hread.trans hst
    have hfrom := readFrom_exits payload.length t
    cases ho : UnknownFieldWriter.readFrom payload.length t with
    | ok a s' =>
      exact ⟨s', (bind_of_ok (onReader_eq_ok.mpr ⟨_, readLengthDelimitedSize_eq_ok.mpr
        ⟨ls, _, hr, hv, rfl⟩, rfl⟩)).trans ((bind_of_ok ht).trans ho)⟩
    | error e s' =>
      refine absurd ⟨htag.room (by simpa using hroom), ?_⟩ (hfrom.error ho).2
      rw [htag.reader, Reader.rest_advance, Nat.add_zero, hr, List.drop_left]
      simp
  | fixed32 hl =>
    obtain rfl : w = .i32 := WireType.code_injective hc
    exact fixed 4 hl rfl

private def ReadComplete (d : ℕ) : Prop :=
  ∀ (w : WireType) (n f : ℕ) (bs xs : List UInt8) (t : Tree) (s : Parse ByteVec),
    s.reader.rest = bs ++ xs → s.reader.rest.length < n → d ≤ s.levels → f ≤ maxNumber →
    Body d f w.code bs t → HasRoom s.toBound t.encode.length →
    ∃ s', readUnknownFieldWith (readGroupWithin n) w f s = .ok () s'

private theorem readGroupLoop_of_members {d : ℕ} (ihd : ReadComplete d) {n f : ℕ}
    {ms xs : List UInt8} {ts : List Tree} {t : Parse ByteVec} (h : Members (Body d) f ms ts)
    (hr : t.reader.rest = ms ++ xs) (hn : t.reader.rest.length < n) (hd : d ≤ t.levels)
    (hf : f ≤ maxNumber) (hroom : HasRoom t.toBound (encodeAll ts ++ key f 4).length) :
    ∃ t', readGroupLoop n f t = .ok () t' := by
  have tag : ∀ {w : WireType} {g : ℕ} {ks ys : List UInt8} {t : Parse ByteVec}, Key ks g w.code →
      t.reader.rest = ks ++ ys → popOnError (onReader readTag) t =
        .ok ⟨g, w⟩ { t with reader := t.reader.advance ks.length } := fun hkey hks =>
    popOnError_of_ok (onReader_eq_ok.mpr ⟨_, readTag_eq_ok.mpr ⟨_, _, hks, hkey, rfl⟩, rfl⟩)
  induction h generalizing n t with
  | @close es hkey =>
    obtain ⟨n, rfl⟩ : ∃ j, n = j + 1 := ⟨n - 1, by omega⟩
    rw [readGroupLoop_succ, bind_of_ok (tag (w := .egroup) hkey hr), if_pos rfl,
      bind_of_ok (popRecursion_apply _), if_neg (by simp)]
    obtain ⟨t', ht', -⟩ := onBound_room (writes_tag (σ := Bound ByteVec) .egroup hf)
      (s := { t with reader := t.reader.advance es.length, ctx := t.ctx.popRecursion })
      (by simpa [HasRoom, WireType.code, Context.AlwaysGrants] using hroom)
    exact ⟨t', ht'⟩
  | @member g c ks bs cs u ts hkey hb hts ih =>
    obtain ⟨n, rfl⟩ : ∃ j, n = j + 1 := ⟨n - 1, by omega⟩
    obtain ⟨w, rfl⟩ : ∃ w : WireType, c = w.code :=
      ⟨.ofCode c, (WireType.code_ofCode hkey.2.2.2).symm⟩
    have hw : w ≠ .egroup := by
      rintro rfl
      exact not_body_four d g bs u hb
    have hpos := hkey.length_pos
    simp only [List.append_assoc] at hr
    have hread := stored_read t ks.length
    have hrest : (t.reader.advance ks.length).rest = bs ++ (cs ++ xs) := by simp [hr]
    have hl := congrArg List.length hr
    rw [encodeAll_cons, List.append_assoc, List.length_append] at hroom
    have hroom' : HasRoom ({ t with reader := t.reader.advance ks.length } : Parse ByteVec).toBound
        (u.encode.length + (encodeAll ts ++ key f 4).length) := hroom
    obtain ⟨v, hv⟩ := ihd w n g bs (cs ++ xs) u { t with reader := t.reader.advance ks.length }
      hrest (by simp only [hrest, List.length_append] at hl ⊢; omega) hd hkey.2.2.1 hb
      ⟨hroom.1, by have := hroom'.2; omega⟩
    have hkept := ((readUnknownFieldWithin_exits (n := n) w hkey.2.2.1 (by
      simp only [hrest, List.length_append] at hl ⊢
      omega)).ok hv).unique hrest hd hb
    have hvrest : v.reader.rest = cs ++ xs := by
      rw [hkept.reader, Reader.rest_advance, hrest, List.drop_left]
    obtain ⟨t', ht'⟩ := ih (n := n) hvrest (by
        simp only [hvrest, List.length_append] at hl ⊢; omega)
      (by rw [hkept.levels]; exact hd) (hkept.room hroom')
    refine ⟨t', ?_⟩
    rw [readGroupLoop_succ, bind_of_ok (tag hkey hr), if_neg hw,
      bind_of_ok (popOnError_of_ok hv), ht']

private theorem readUnknownFieldWith_of_value {g : ℕ → ParseM ByteVec Unit} {w : WireType} {f : ℕ}
    {t : Tree} {s : Parse ByteVec} (hf : f ≤ maxNumber) (hnum : t.number = f)
    (hcode : t.code = w.code) (hroom : HasRoom s.toBound t.encode.length)
    (hv : ∀ u, Stored s u 0 (key f w.code) → HasRoom u.toBound t.body.length →
      ∃ s', readUnknownValue g w f u = .ok () s') :
    ∃ s', readUnknownFieldWith g w f s = .ok () s' := by
  rw [Tree.encode, hnum, hcode, List.length_append] at hroom
  have hkey : HasRoom s.toBound (key f w.code).length := ⟨hroom.1, by have := hroom.2; omega⟩
  obtain ⟨u, hu, hst⟩ := onBound_room (writes_tag w hf) hkey
  obtain ⟨s', hs'⟩ := hv u hst (hst.room hroom)
  exact ⟨s', failing_of_ok ((bind_of_ok hu).trans hs')⟩

private theorem readComplete_leaf {w : WireType} {n f : ℕ} {bs xs : List UInt8} {t : Tree}
    {s : Parse ByteVec} (hr : s.reader.rest = bs ++ xs) (hf : f ≤ maxNumber)
    (hb : Leaf f w.code bs t) (hroom : HasRoom s.toBound t.encode.length) :
    ∃ s', readUnknownFieldWith (readGroupWithin n) w f s = .ok () s' :=
  readUnknownFieldWith_of_value hf hb.number_code.1 hb.number_code.2 hroom fun u hu hroom' =>
    readUnknownValue_leaf (by rw [hu.reader, Reader.advance_zero]; exact hr) hb hroom'

private theorem readComplete (d : ℕ) : ReadComplete d := by
  induction d with
  | zero => intro w n f bs xs t s hr _ _ hf hb hroom; exact readComplete_leaf hr hf hb hroom
  | succ d ih =>
    intro w n f bs xs t s hr hn hd hf hb hroom
    rcases hb with hb | ⟨hc, ts, rfl, hm⟩
    · exact readComplete_leaf hr hf hb hroom
    obtain rfl : w = .sgroup := WireType.code_injective hc
    refine readUnknownFieldWith_of_value hf rfl rfl hroom fun u hu hroom' => ?_
    have hur : u.reader.rest = bs ++ xs := by rw [hu.reader, Reader.advance_zero]; exact hr
    have hpos : 0 < u.levels := by rw [hu.levels]; omega
    have hlevels := Parse.levels_descended hpos
    obtain ⟨s', hs'⟩ := readGroupLoop_of_members ih (n := n) (t := u.descended) hm hur
      (by rw [Parse.descended_reader, hur, ← hr]; exact hn) (by rw [hu.levels] at hlevels; omega) hf
      (by simp only [Tree.body] at hroom'; exact hroom')
    exact ⟨s', (bind_of_ok (pushRecursion_eq_ok.mpr
      ⟨Nat.lt_of_sub_pos hpos, rfl⟩)).trans hs'⟩

/-- A body of the grammar is stored whenever there is room for its canonical form. -/
theorem readUnknownField_complete {w : WireType} {f : ℕ} {bs xs : List UInt8} {t : Tree}
    {s : Parse ByteVec} (hf : f ≤ maxNumber) (hr : s.reader.rest = bs ++ xs)
    (hb : Body s.levels f w.code bs t) (hroom : HasRoom s.toBound t.encode.length) :
    ∃ s', readUnknownField w f s = .ok () s' :=
  readComplete s.levels w _ f bs xs t s hr (Nat.lt_succ_self _) (Nat.le_refl _) hf hb hroom

end Protocyte
