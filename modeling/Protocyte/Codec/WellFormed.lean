import Protocyte.Codec.Takes

/-! Well-formed values and fields, and that each is taken: scalars, strings, nested messages, and
the unknown fields that are skipped or stored. -/
namespace Protocyte
open Foundation.Computation Foundation.Wire
open Foundation.LittleEndian (ofBytes)

variable {O α : Type} {Sub : ℕ → Type}

namespace ScalarType

/-- The value of a varint; the bits above the type's own are dropped. -/
def ofVarint : (t : ScalarType) → ℕ → t.Value
  | sint32, n => decodeZigzag (BitVec.ofNat 32 n)
  | sint64, n => decodeZigzag (BitVec.ofNat 64 n)
  | bool, n => if n ≠ 0 then 1 else 0
  | int64, n | uint64, n => BitVec.ofNat 64 n
  | int32, n | uint32, n | openEnum, n | closedEnum _, n => BitVec.ofNat 32 n
  | double, n | fixed64, n | sfixed64, n => BitVec.ofNat 64 n
  | float, n | fixed32, n | sfixed32, n => BitVec.ofNat 32 n

/-- The bytes a value may have after its tag. -/
def Encodes (t : ScalarType) (bs : List UInt8) (v : t.Value) : Prop :=
  match t.fixedWidth with
  | some width => bs.length = width ∧ v = BitVec.ofNat t.width (ofBytes bs)
  | none => ∃ n, Varint bs n ∧ v = t.ofVarint n

theorem readScalar_eq_ok (t : ScalarType) {r r' : Reader} {v : t.Value} :
    readScalar t r = .ok v r' ↔
      ∃ bs xs, r.rest = bs ++ xs ∧ t.Encodes bs v ∧ r' = r.advance bs.length := by
  have fixed : ∀ {w : ℕ} {r' : Reader} {v : BitVec w}, readFixedScalar w r = .ok v r' ↔
      ∃ bs xs, r.rest = bs ++ xs ∧ (bs.length = w / 8 ∧ v = BitVec.ofNat w (ofBytes bs)) ∧
        r' = r.advance bs.length := by
    intro w r' v
    simp only [readFixedScalar, bind_eq_ok, readFixed_eq_ok, pure_apply, EStateM.Result.ok.injEq]
    constructor
    · rintro ⟨_, _, ⟨bs, xs, hr, hl, rfl, rfl⟩, rfl, rfl⟩
      exact ⟨bs, xs, hr, ⟨hl, rfl⟩, by rw [hl]⟩
    · rintro ⟨bs, xs, hr, ⟨hl, rfl⟩, rfl⟩
      exact ⟨_, _, ⟨bs, xs, hr, hl, rfl, rfl⟩, rfl, by rw [hl]⟩
  have varint : ∀ {w : ℕ} {f : ℕ → BitVec w} {r' : Reader} {v : BitVec w},
      (do return f (← readVarint) : ReaderM (BitVec w)) r = .ok v r' ↔
      ∃ bs xs, r.rest = bs ++ xs ∧ (∃ n, Varint bs n ∧ v = f n) ∧ r' = r.advance bs.length := by
    intro w f r' v
    simp only [bind_eq_ok, readVarint_eq_ok, pure_apply, EStateM.Result.ok.injEq]
    constructor
    · rintro ⟨n, _, ⟨bs, xs, hr, hv, rfl⟩, rfl, rfl⟩
      exact ⟨bs, xs, hr, ⟨n, hv, rfl⟩, rfl⟩
    · rintro ⟨bs, xs, hr, ⟨n, hv, rfl⟩, rfl⟩
      exact ⟨n, _, ⟨bs, xs, hr, hv, rfl⟩, rfl, rfl⟩
  cases t with
  | double | fixed64 | sfixed64 | float | fixed32 | sfixed32 => exact fixed
  | int32 | int64 | uint32 | uint64 | openEnum | closedEnum values | sint32 | sint64 | bool =>
    exact varint

theorem Encodes.reads {t : ScalarType} {bs : List UInt8} {v : t.Value} (h : t.Encodes bs v) :
    Reads (readScalar t) bs v := by
  intro r ⟨xs, hr⟩
  exact t.readScalar_eq_ok.mpr ⟨bs, xs, hr.symm, h, rfl⟩

theorem encodes_scalarBytes (t : ScalarType) (v : t.Value) : t.Encodes (scalarBytes t v) v := by
  have hr : (Reader.slice { data := scalarBytes t v }).rest = scalarBytes t v ++ [] := by
    rw [List.append_nil]
    rfl
  obtain ⟨bs, xs, hbs, henc, hadvance⟩ :=
    t.readScalar_eq_ok.mp (readScalar_scalarBytes t v hr)
  have hrest := congrArg (fun r => r.rest.length) hadvance
  simp only [Reader.rest_advance, hr, List.length_drop, List.append_nil, Nat.sub_self] at hrest
  rw [hr, List.append_nil] at hbs
  have hlen := congrArg List.length hbs
  rw [List.length_append] at hlen
  have hxs : xs = [] := List.length_eq_zero_iff.mp (by omega)
  rw [hxs, List.append_nil] at hbs
  rw [hbs]
  exact henc

end ScalarType

/-- A payload behind its length. -/
def Delimited (bs payload : List UInt8) : Prop :=
  ∃ ls, Varint ls payload.length ∧ bs = ls ++ payload

theorem delimited_encode {payload : List UInt8} (h : payload.length ≤ usizeMax) :
    Delimited (Foundation.Base128.encode payload.length ++ payload) payload :=
  ⟨_, varint_encode (Nat.lt_succ_of_le h), rfl⟩

theorem le_usizeMax_of_varint {ls : List UInt8} {n : ℕ} (h : Varint ls n) : n ≤ usizeMax :=
  Nat.le_of_lt_succ h.2.2

namespace Reads

theorem readSize {ls : List UInt8} {n : ℕ} (h : Varint ls n) :
    Reads readSize ls ⟨n, le_usizeMax_of_varint h⟩ := by
  intro r hr
  have hsize := Reads.size h r hr
  unfold Protocyte.readSize
  split
  · next heq =>
    rw [hsize] at heq
    cases heq
    rfl
  · next heq =>
    rw [hsize] at heq
    cases heq

theorem readBuffer {bs : List UInt8} {count : ℕ} (h : bs.length = count) :
    Reads (Reader.readBuffer count) bs ⟨bs, h⟩ := by
  intro r hr
  have hread := Reads.read h r hr
  unfold Reader.readBuffer
  split
  · next heq =>
    rw [hread] at heq
    cases heq
    rfl
  · next heq =>
    rw [hread] at heq
    cases heq

end Reads

/-- The bounds where a payload is within the limits. -/
def Bounds.holding (B : Bounds) (payload : List UInt8) : Bounds where
  limits := B.limits
  room := B.room ∧ payload.length ≤ B.limits.maxMessageBytes ∧
    payload.length ≤ B.limits.maxStringBytes

namespace Takes

variable {B : Bounds} {s : Parse O}

theorem readSized {text : Bool} {payload : Bytes}
    (h : text = true → validateUtf8 payload.val = true) :
    Takes B (readSized text ⟨payload.val.length, payload.2⟩ : ParseM O Bytes) s payload.val
      fun v o => v = payload ∧ o = s.obj := by
  refine assuming (P := payload.val.length ≤ B.limits.maxStringBytes)
    (fun hs hsuffice => Nat.le_trans hs.length_le hsuffice.string_le) (get_bind ?_)
  refine ite (fun hlong => failField 0 (by decide) fun hsuffice => ?_) fun _ => ?_
  · rw [hsuffice.limits] at hlong
    exact absurd hsuffice.room.2 (Nat.not_le_of_lt hlong)
  refine canRead (((takeBlock _).located).before fun _ t _ ho => ?_)
  refine (onReader (Reads.readBuffer rfl)).andThen fun b u _ ⟨hb, hu⟩ => ?_
  rw [hb]
  refine ite (fun hc => ?_) fun _ => ?_
  · have hvalid := h hc.1
    rw [hvalid] at hc
    cases hc.2
  · exact pure ⟨rfl, hu.trans ho⟩

theorem readLengthDelimited {text : Bool} {bs : List UInt8} {payload : Bytes}
    (hd : Delimited bs payload.val) (h : text = true → validateUtf8 payload.val = true) :
    Takes B (readLengthDelimited text : ParseM O Bytes) s bs fun v o =>
      v = payload ∧ o = s.obj := by
  obtain ⟨ls, hls, rfl⟩ := hd
  have hle : payload.val.length ≤ (ls ++ payload.val).length := by
    rw [List.length_append]
    exact Nat.le_add_left _ _
  refine reading (Reads.readSize hls) fun t _ ho => ?_
  rw [← ho]
  exact (readSized h).le hle

theorem readBoundedBytes {max : Usize} {fixed : Bool} {bs : List UInt8} (f : ℕ)
    {payload : ArrayBytes max fixed} (hd : Delimited bs payload.val) :
    Takes B (readBoundedBytes max fixed f : ParseM O _) s bs fun v o =>
      v = payload ∧ o = s.obj := by
  obtain ⟨ls, hls, rfl⟩ := hd
  refine reading (Reads.readSize hls) fun t _ ho => ?_
  rw [← ho]
  refine dite (fun h => absurd (Subtype.ext (payload.2.2 h.1)) h.2) fun _ => ?_
  refine dite (fun h => ?_) fun _ => ?_
  · have hle : payload.val.length ≤ max.val := payload.2.1
    exact absurd hle (Nat.not_le_of_lt h.2)
  refine canRead ((onReader (Reads.readBuffer rfl)).andThen fun b v _ ⟨hb, hv⟩ => pure ⟨?_, hv⟩)
  rw [hb]

/-- The length of a nested message is checked before its bytes are known to be there. -/
theorem openNestedMessage (f : ℕ) {ls : List UInt8} {n : ℕ} (h : Varint ls n)
    (hn : B.room → n ≤ B.limits.maxMessageBytes) :
    Takes B (openNestedMessage f : ParseM O ℕ) s ls fun a o => a = n ∧ o = s.obj := by
  refine ((onReader (Reads.size h)).withField f).andThen fun a t _ ⟨ha, ho⟩ => ?_
  have hsized : Takes B (openNestedMessageSized a f : ParseM O Unit) t [] fun _ o => o = t.obj := by
    refine get_bind ?_
    refine ite (fun hlong => failField f (by decide) fun hsuffice => ?_) fun _ => pushRecursion f
    rw [ha, hsuffice.limits] at hlong
    exact absurd (hn hsuffice.room) (Nat.not_le_of_lt hlong)
  exact (hsized.withField f).before fun _ u _ hu => pure ⟨ha, by rw [hu, ho]⟩

/-- The parse of a payload, between opening and finishing it. -/
theorem nestedMessage {x : ParseM O α} {bs : List UInt8} {Q : α → O → Prop}
    (hx : ∀ t : Parse O, t.obj = s.obj → t.reader.rest = bs → t.reader.Steady →
      Takes B x t bs Q) : Takes B (nestedMessage bs.length x) s bs Q := by
  refine (limited fun t ho hrest hsteady => ?_).releasing
  refine (hx t ho hrest hsteady).andThen fun a u hu ha => ?_
  have hurest : u.reader.rest = [] := by
    rw [hu.rest, hrest, List.drop_length]
  exact (finish (hsteady.moved hu) hurest).before fun _ v _ hv => pure (by rw [hv]; exact ha)

/-- A payload behind its length is no longer than what is there. -/
theorem delimited {x : ParseM O α} {ls payload : List UInt8} {Q : α → O → Prop} {c : ℕ}
    (hx : Takes (B.holding payload) x s (ls ++ payload) Q c) :
    Takes B x s (ls ++ payload) Q c := by
  refine assuming (fun hs hsuffice => ?_) hx
  have hle := hs.length_le
  rw [List.length_append] at hle
  have hmessage := hsuffice.message_le
  have hstring := hsuffice.string_le
  exact ⟨by omega, by omega⟩

theorem held {x : ParseM O α} {bs : List UInt8} {Q : α → O → Prop} {c : ℕ} (payload : List UInt8)
    (hx : Takes B x s bs Q c) : Takes (B.holding payload) x s bs Q c := hx.room _

theorem readMessagePartial {ops : MessageOps Sub} {id : ℕ} (f : ℕ) {out : Sub id}
    {bs payload : List UInt8} {Q : Sub id → Prop} (hd : Delimited bs payload)
    (hx : ∀ t : Parse (Sub id), t.obj = out → t.reader.rest = payload → t.reader.Steady →
      Takes B (ops.mergeFieldsFrom id) t payload fun _ o => Q o) :
    Takes B (readMessagePartial ops id f out : ParseM O (Sub id)) s bs fun v o =>
      Q v ∧ o = s.obj := by
  obtain ⟨ls, hls, rfl⟩ := hd
  refine delimited ?_
  have hopen : Takes (B.holding payload) (Protocyte.openNestedMessage f : ParseM O ℕ) s ls
      fun a o => a = payload.length ∧ o = s.obj := openNestedMessage f hls fun hroom => hroom.2.1
  refine withField f (hopen.bind fun n t _ ⟨hn, ho⟩ => ?_)
  rw [hn]
  refine nestedMessage fun u hu hrest hsteady => ?_
  refine Takes.andThen (Q := fun p o => Q p.2 ∧ o = u.obj) ?_ ?_
  · refine ref fun v hv hvrest hvsteady => ?_
    have htemporary := inTemporary (O := O) (s := v) out ((hx ⟨⟨v.ctx, out⟩, v.reader⟩ rfl
      (hvrest.trans hrest) (hvsteady hsteady)).held payload)
    rw [hv] at htemporary
    exact htemporary
  · intro p v _ ⟨hp, hv⟩
    exact pure ⟨hp, by rw [hv, hu, ho]⟩

end Takes

/-- What comes after the key of a field that is no group. -/
private theorem takes_leaf {B : Bounds} {g : ℕ → ParseM O Unit} {w : WireType} {f : ℕ} {bs : List UInt8}
    {t : Tree} {s : Parse O} (h : Leaf f w.code bs t) :
    Takes B (skipFieldWith g w f) s bs fun _ o => o = s.obj := by
  have reading {x : ReaderM Unit} (hx : Reads x bs ()) :
      Takes B (withField f (onReader x)) s bs fun _ o => o = s.obj :=
    ((Takes.onReader hx).withField f).mono fun _ _ h => h.2
  generalize hc : w.code = c at h
  cases h with
  | varint hv =>
    obtain rfl : w = .varint := WireType.code_injective hc
    exact reading ((Reads.varint hv).map fun _ => ())
  | fixed64 hl =>
    obtain rfl : w = .i64 := WireType.code_injective hc
    exact reading (Reads.skip hl)
  | @bytes ls payload hv =>
    obtain rfl : w = .len := WireType.code_injective hc
    exact reading ((Reads.size hv).bind (Reads.skip rfl))
  | fixed32 hl =>
    obtain rfl : w = .i32 := WireType.code_injective hc
    exact reading (Reads.skip hl)

/-- What is left after a tag. -/
private theorem Reader.Moved.room {r r' : Reader} {ks : List UInt8} {f c n : ℕ} (hk : Key ks f c)
    (h : r.Moved r' ks.length) (hn : r.rest.length < n + 1) : r'.rest.length < n := by
  have hle := h.le
  have hpos := hk.length_pos
  rw [h.rest, List.length_drop]
  omega

/-- Fields that nest at most `d` deep are skipped, when the bounds exceed the bytes left. -/
private def Skips (B : Bounds) (O : Type) (d : ℕ) : Prop :=
  ∀ (w : WireType) (n f : ℕ) (bs : List UInt8) (t : Tree) (s : Parse O),
    s.reader.rest.length < n → Body d f w.code bs t →
    Takes B (skipFieldWith (skipGroupWithin n) w f) s bs fun _ o => o = s.obj

private theorem skipGroupLoop_takes {B : Bounds} {d : ℕ} (ih : Skips B O d) {n f : ℕ} {bs : List UInt8}
    {ts : List Tree} {s : Parse O} (h : Members (Body d) f bs ts) (hn : s.reader.rest.length < n) :
    Takes B (skipGroupLoop n f) s bs fun _ o => o = s.obj := by
  induction h generalizing n s with
  | @close es hkey =>
    obtain ⟨n, rfl⟩ : ∃ j, n = j + 1 := ⟨n - 1, by omega⟩
    rw [skipGroupLoop_succ]
    have htag : Reads readTag es ⟨f, .egroup⟩ := Reads.tag hkey
    refine ((Takes.onReader htag).unwinding f).andThen fun tag t _ ⟨htag, ho⟩ => ?_
    rw [htag, if_pos rfl]
    refine Takes.popRecursion.before fun _ u _ hu => ?_
    rw [if_neg (not_not_intro rfl)]
    exact .pure (hu.trans ho)
  | @member g c ks bs cs t ts hkey hb hts ih' =>
    obtain ⟨n, rfl⟩ : ∃ j, n = j + 1 := ⟨n - 1, by omega⟩
    obtain ⟨w, rfl⟩ : ∃ w : WireType, c = w.code :=
      ⟨.ofCode c, (WireType.code_ofCode hkey.2.2.2).symm⟩
    have hw : w ≠ .egroup := by
      rintro rfl
      exact not_body_four d g bs t hb
    rw [skipGroupLoop_succ]
    have htag : Reads readTag ks ⟨g, w⟩ := Reads.tag hkey
    refine ((Takes.onReader htag).unwinding f).bind fun tag t ht ⟨htag, ho⟩ => ?_
    have hroom := ht.room hkey hn
    rw [htag, if_neg hw]
    refine ((ih w n g bs _ t hroom hb).unwinding f).bind fun _ u hu ho' => ?_
    refine (ih' (s := u) ?_).mono fun _ o h => by rw [h, ho', ho]
    rw [hu.rest, List.length_drop]
    omega

private theorem skips (B : Bounds) (d : ℕ) : Skips B O d := by
  induction d with
  | zero => exact fun w n f bs t s _ hb => takes_leaf hb
  | succ d ih =>
    intro w n f bs t s hn hb
    rcases hb with hb | ⟨hc, ts, rfl, hm⟩
    · exact takes_leaf hb
    obtain rfl : w = .sgroup := WireType.code_injective hc
    refine Takes.withField f (((Takes.pushRecursion f).withField f).before fun _ t ht ho => ?_)
    refine (skipGroupLoop_takes ih hm ?_).mono fun _ o h => by rw [h, ho]
    rw [ht.rest]
    exact hn

/-- A field is skipped, however deep it nests. -/
theorem Takes.skipField {B : Bounds} {w : WireType} {f d : ℕ} {bs : List UInt8} {t : Tree} {s : Parse O}
    (h : Body d f w.code bs t) : Takes B (skipField w f) s bs fun _ o => o = s.obj :=
  fun hs => skips B d w _ f bs t s (Nat.lt_succ_self _) h hs

section
variable {B : Bounds} {s : Parse ByteVec}

theorem Bounds.Suffice.hasRoom {c n : ℕ} {ctx : Context} {r : Reader} {storage : ByteVec}
    (h : B.Suffice c ctx r) (hroom : B.Stores (storage.items.length + n)) :
    UnknownFieldWriter.HasRoom { ctx, obj := storage } n := by
  refine ⟨h.grants, ?_⟩
  rw [h.limits]
  exact hroom h.room

theorem Takes.writes {x : BoundM ByteVec Unit} {cs : List UInt8} {c : ℕ} (hx : Writes x cs)
    (hroom : B.Stores (s.obj.items.length + cs.length)) :
    Takes B (Protocyte.onBound x) s [] (fun _ o => o.items = s.obj.items ++ cs) c := by
  refine .onBound (P := UnknownFieldWriter.HasRoom s.toBound cs.length)
    ((hx s.toBound).mono ?_ fun _ _ h => ⟨h.2.2.2, h.2.2.1⟩) fun hs => hs.hasRoom hroom
  exact fun _ b h => ⟨h.2.1.ctx, h.1⟩

/-- A read, and what is written for it. -/
private theorem Takes.readWrite {α : Type} {x : ReaderM α} {a : α} {y : α → BoundM ByteVec Unit}
    {bs cs : List UInt8} (hx : Reads x bs a) (hy : Writes (y a) cs)
    (hroom : B.Stores (s.obj.items.length + cs.length)) :
    Takes B (do Protocyte.onBound (y (← Protocyte.onReader x)) : ParseM ByteVec Unit) s bs
      fun _ o => o.items = s.obj.items ++ cs := by
  refine (Takes.onReader hx).andThen fun b t _ ⟨hb, ho⟩ => ?_
  rw [← ho] at hroom ⊢
  rw [hb]
  exact .writes hy hroom

theorem Takes.readFrom (bs : List UInt8) (hroom : B.Stores (s.obj.items.length + bs.length)) :
    Takes B (UnknownFieldWriter.readFrom bs.length) s bs
      fun _ o => o.items = s.obj.items ++ bs := by
  intro hs
  refine Exits.intro ?_ ?_
  · intro _ t h
    obtain ⟨cs, xs, hcs, hlen, hstored⟩ := (readFrom_exits bs.length s).ok h
    have hbs : cs = bs := by
      obtain ⟨ys, hys⟩ := hs
      exact (List.append_inj (hcs.symm.trans hys.symm) hlen).1
    refine ⟨?_, hstored.items.trans (by rw [hbs])⟩
    refine .intro ?_ hstored.ctx.balanced.limits hstored.ctx.alwaysGrants fun budget n ha => ?_
    · rw [hstored.reader]
      exact .advance hs.length_le
    · rw [hstored.reader]
      exact (Reader.allows_advance _ _).mpr (ha.mono (Nat.le_add_left n _))
  · intro e t h
    unfold UnknownFieldWriter.readFrom at h
    split at h
    · next hfull =>
      cases h
      refine .inr ⟨by simp [Error.IsLimit, UnknownFieldWriter.sizeLimit], fun hsuffice => ?_⟩
      have hle := hroom hsuffice.room
      rw [← hsuffice.limits] at hle
      have hwrite := (UnknownFieldWriter.canWrite_iff bs.length s.toBound).mpr hle
      rw [hwrite] at hfull
      cases hfull
    split at h
    · cases h
    dsimp only at h
    split at h
    · next e' t' hresize =>
      cases h
      obtain ⟨b, hb, -⟩ := onBound_eq_error.mp hresize
      have hrefused := ((Vec.resizeForOverwrite_exits 0 _ _).error hb).2.2
      refine .inr ⟨?_, fun hsuffice => ?_⟩
      · have hcode := hrefused.code
        unfold Error.IsLimit
        simp only [List.mem_cons, List.not_mem_nil, or_false] at hcode ⊢
        rcases hcode with h | h | h <;> simp [h]
      · have hle := Nat.le_trans (hroom hsuffice.room) B.limits.maxUnknownFieldBytes_le
        exact (hrefused.not_alwaysGrants hle hle).2 hsuffice.grants
    · next t' hresize =>
      obtain ⟨b, -, rfl⟩ := onBound_eq_ok.mp hresize
      have hread : Protocyte.onReader (Reader.read bs.length) { s with toBound := b } = .ok bs _ :=
        onReader_eq_ok.mpr ⟨_, Reads.read rfl _ hs, rfl⟩
      rw [hread] at h
      cases h

/-- A field that is no group is stored in its canonical form. -/
private theorem readUnknownValue_leaf_takes {g : ℕ → ParseM ByteVec Unit} {w : WireType} {f : ℕ}
    {bs : List UInt8} {t : Tree} (h : Leaf f w.code bs t)
    (hroom : B.Stores (s.obj.items.length + t.body.length)) :
    Takes B (readUnknownValue g w f) s bs fun _ o => o.items = s.obj.items ++ t.body := by
  generalize hc : w.code = c at h
  cases h with
  | varint hv =>
    obtain rfl : w = .varint := WireType.code_injective hc
    exact .readWrite (.varint hv) (writes_varint hv.2.2) hroom
  | fixed64 hl =>
    obtain rfl : w = .i64 := WireType.code_injective hc
    exact .readWrite (.fixed hl) (writes_fixed 8 _) hroom
  | @bytes ls payload hv =>
    obtain rfl : w = .len := WireType.code_injective hc
    have hroom : B.Stores (s.obj.items.length +
        (Foundation.Base128.encode payload.length ++ payload).length) := hroom
    rw [List.length_append, ← Nat.add_assoc] at hroom
    refine (Takes.onReader (Reads.size hv)).bind fun n t _ ⟨hn, ho⟩ => ?_
    rw [hn]
    rw [← ho] at hroom
    refine (Takes.writes (writes_varint hv.2.2) (hroom.mono (Nat.le_add_right _ _))).before
      fun _ u _ hu => ?_
    refine (Takes.readFrom payload ?_).mono fun _ o h => ?_
    · rw [hu, List.length_append]
      exact hroom
    · rw [h, hu, ho, List.append_assoc]
      rfl
  | fixed32 hl =>
    obtain rfl : w = .i32 := WireType.code_injective hc
    exact .readWrite (.fixed hl) (writes_fixed 4 _) hroom

end

private theorem takes_failing {B : Bounds} {s : Parse ByteVec} {x : ParseM ByteVec Unit} {bs : List UInt8}
    {Q : Unit → ByteVec → Prop} {c : ℕ} (f : ℕ) (hx : Takes B x s bs Q c) :
    Takes B (failing f x) s bs Q c := by
  intro hs
  have hx := hx hs
  unfold Protocyte.failing
  cases h : x s with
  | ok a t => exact hx.ok h
  | error e t =>
    have he := hx.error h
    dsimp only
    split
    · exact he.congr_code rfl
    · exact he.congr_code rfl

private def StoresBody (B : Bounds) (d : ℕ) : Prop :=
  ∀ (w : WireType) (n f : ℕ) (bs : List UInt8) (t : Tree) (s : Parse ByteVec),
    s.reader.rest.length < n → f ≤ maxNumber → Body d f w.code bs t →
    B.Stores (s.obj.items.length + t.encode.length) →
    Takes B (readUnknownFieldWith (readGroupWithin n) w f) s bs
      fun _ o => o.items = s.obj.items ++ t.encode

private theorem readGroupLoop_takes {B : Bounds} {d : ℕ} (ih : StoresBody B d) {n f : ℕ}
    (hf : f ≤ maxNumber) {bs : List UInt8} {ts : List Tree} {s : Parse ByteVec}
    (h : Members (Body d) f bs ts) (hn : s.reader.rest.length < n)
    (hroom : B.Stores (s.obj.items.length + (encodeAll ts ++ key f 4).length)) :
    Takes B (readGroupLoop n f) s bs
      fun _ o => o.items = s.obj.items ++ (encodeAll ts ++ key f 4) := by
  induction h generalizing n s with
  | @close es hkey =>
    obtain ⟨n, rfl⟩ : ∃ j, n = j + 1 := ⟨n - 1, by omega⟩
    rw [readGroupLoop_succ]
    have htag : Reads readTag es ⟨f, .egroup⟩ := Reads.tag hkey
    refine ((Takes.onReader htag).popOnError).andThen fun tag t _ ⟨htag, ho⟩ => ?_
    rw [htag, if_pos rfl]
    refine Takes.popRecursion.before fun _ u _ hu => ?_
    rw [if_neg (not_not_intro rfl)]
    rw [encodeAll_nil, List.nil_append, ← ho, ← hu] at hroom
    refine (Takes.writes (writes_tag .egroup hf) hroom).mono fun _ o h => ?_
    rw [h, hu, ho, encodeAll_nil, List.nil_append]
    rfl
  | @member g c ks bs cs t ts hkey hb hts ih' =>
    obtain ⟨n, rfl⟩ : ∃ j, n = j + 1 := ⟨n - 1, by omega⟩
    obtain ⟨w, rfl⟩ : ∃ w : WireType, c = w.code :=
      ⟨.ofCode c, (WireType.code_ofCode hkey.2.2.2).symm⟩
    have hw : w ≠ .egroup := by
      rintro rfl
      exact not_body_four d g bs t hb
    rw [readGroupLoop_succ]
    have htag : Reads readTag ks ⟨g, w⟩ := Reads.tag hkey
    refine ((Takes.onReader htag).popOnError).bind fun tag u hu ⟨htag, ho⟩ => ?_
    have hleft := hu.room hkey hn
    rw [encodeAll_cons, List.append_assoc, List.length_append, ← Nat.add_assoc, ← ho] at hroom
    rw [htag, if_neg hw]
    have hfirst := ih w n g bs t u hleft hkey.2.2.1 hb (hroom.mono (Nat.le_add_right _ _))
    refine hfirst.popOnError.bind fun _ v hv ho' => ?_
    refine (ih' (s := v) ?_ ?_).mono fun _ o h => ?_
    · rw [hv.rest, List.length_drop]
      omega
    · rw [ho', List.length_append]
      exact hroom
    · rw [h, ho', ho, encodeAll_cons]
      simp only [List.append_assoc]

private theorem storesBody (B : Bounds) (d : ℕ) : StoresBody B d := by
  have tagged {w : WireType} {f : ℕ} {bs : List UInt8} {t : Tree} {s : Parse ByteVec}
      {g : ℕ → ParseM ByteVec Unit} (hf : f ≤ maxNumber) (hnumber : t.number = f ∧ t.code = w.code)
      (hroom : B.Stores (s.obj.items.length + t.encode.length))
      (hvalue : ∀ u : Parse ByteVec, s.reader.Moved u.reader 0 →
        B.Stores (u.obj.items.length + t.body.length) →
        Takes B (readUnknownValue g w f) u bs fun _ o => o.items = u.obj.items ++ t.body) :
      Takes B (readUnknownFieldWith g w f) s bs fun _ o => o.items = s.obj.items ++ t.encode := by
    have hencode : t.encode = key f w.code ++ t.body := by
      rw [Tree.encode, hnumber.1, hnumber.2]
    rw [hencode, List.length_append, ← Nat.add_assoc] at hroom
    refine takes_failing f ((Takes.writes (writes_tag w hf)
      (hroom.mono (Nat.le_add_right _ _))).before fun _ u hu ho => ?_)
    refine (hvalue u hu ?_).mono fun _ o h => ?_
    · rw [ho, List.length_append]
      exact hroom
    · rw [h, ho, hencode, List.append_assoc]
  induction d with
  | zero =>
    exact fun w n f bs t s _ hf hb hroom => tagged hf (Leaf.number_code hb) hroom fun u _ =>
      readUnknownValue_leaf_takes hb
  | succ d ih =>
    intro w n f bs t s hn hf hb hroom
    rcases hb with hb | ⟨hc, ts, rfl, hm⟩
    · exact tagged hf hb.number_code hroom fun u _ => readUnknownValue_leaf_takes hb
    obtain rfl : w = .sgroup := WireType.code_injective hc
    refine tagged hf ⟨rfl, rfl⟩ hroom fun u hu hbody => ?_
    refine (Takes.pushRecursion f).before fun _ v hv ho => ?_
    refine (readGroupLoop_takes ih hf hm ?_ ?_).mono fun _ o h => ?_
    · rw [hv.rest, hu.rest]
      exact hn
    · rw [ho]
      exact hbody
    · rw [h, ho, Tree.body]

/-- A field is stored in its canonical form, however deep it nests. -/
theorem Takes.readUnknownField {B : Bounds} {w : WireType} {f d : ℕ} {bs : List UInt8} {t : Tree}
    {s : Parse ByteVec} (hf : f ≤ maxNumber) (h : Body d f w.code bs t)
    (hroom : B.Stores (s.obj.items.length + t.encode.length)) :
    Takes B (readUnknownField w f) s bs fun _ o => o.items = s.obj.items ++ t.encode :=
  fun hs => storesBody B d w _ f bs t s (Nat.lt_succ_self _) hf h hroom hs

/-- An operation of a storage appends `cs`, unless there is no room for it. -/
def Appends (x : BoundM ByteVec Unit) (cs : List UInt8) : Prop := ∀ s, Exits (x s)
  (fun _ s' => s.ctx.Spent s'.ctx ∧ s'.obj.items = s.obj.items ++ cs)
  (fun e _ => e.IsLimit ∧ ¬UnknownFieldWriter.HasRoom s cs.length)

namespace Appends

variable {x : BoundM ByteVec Unit} {bs cs : List UInt8}

theorem of_writes (hx : Writes x cs) : Appends x cs := fun s =>
  (hx s).mono (fun _ _ h => ⟨h.2.1.ctx, h.1⟩) fun _ _ h => ⟨h.2.2.2, h.2.2.1⟩

theorem bind {y : BoundM ByteVec Unit} (hx : Appends x bs) (hy : Appends y cs) :
    Appends (do x; y) (bs ++ cs) := by
  intro s
  refine Exits.bind ((hx s).mono (fun _ _ h => h) ?_) fun _ t ⟨hs, ht⟩ => (hy t).mono ?_ ?_
  · intro e _ ⟨he, hn⟩
    refine ⟨he, fun hroom => hn ⟨hroom.1, Nat.le_trans ?_ hroom.2⟩⟩
    rw [List.length_append]
    omega
  · intro _ u ⟨hu, hitems⟩
    refine ⟨hs.trans hu, ?_⟩
    rw [hitems, ht, List.append_assoc]
  · intro e _ ⟨he, hn⟩
    refine ⟨he, fun hroom => hn (UnknownFieldWriter.hasRoom_after hs ht _ ?_)⟩
    rwa [List.length_append] at hroom

theorem reserve {n : ℕ} (hn : n ≤ usizeMax) : Appends (Vec.reserve n) [] := by
  intro s
  refine (Vec.reserve_exits n s).mono ?_ ?_
  · intro _ t h
    rw [h.2.1, List.append_nil]
    exact ⟨h.1, rfl⟩
  · intro e _ ⟨_, _, he⟩
    rcases he with ⟨he, hg⟩ | ⟨_, hlt⟩
    · exact ⟨by simp [Error.IsLimit, he], fun hroom => hg hroom.1⟩
    · exact absurd hn (Nat.not_le_of_lt hlt)

theorem appendTrivialRange (hcs : cs.length ≤ usizeMax) :
    Appends (Vec.appendTrivialRange cs) cs := by
  intro s
  refine (Vec.appendTrivialRange_exits hcs (Nat.le_refl _) s).mono (fun _ _ h => h) ?_
  intro e _ ⟨_, _, he⟩
  exact ⟨UnknownFieldWriter.refused_code he, UnknownFieldWriter.refused_not_room he⟩

/-- What is built next to the storage, and replaces it in the end. -/
theorem staged (hx : Appends x cs) (s : Bound ByteVec) : Exits ((do
    let (_, output) ← onTemporary (Vec.empty : ByteVec) x
    moveAssign output : BoundM ByteVec Unit) s)
      (fun _ s' => s.ctx.Spent s'.ctx ∧ s'.obj.items = cs)
      (fun e _ => e.IsLimit ∧
        ¬(s.ctx.AlwaysGrants ∧ cs.length ≤ s.ctx.limits.maxUnknownFieldBytes)) := by
  refine Exits.bind ((onTemporary_exits (hx { ctx := s.ctx, obj := Vec.empty })).mono
    (fun _ _ h => h.1) ?_) fun p t ht => ht
  intro e t ⟨⟨_, he, hn⟩, _⟩
  refine ⟨he, fun ⟨hg, hle⟩ => hn ⟨hg, ?_⟩⟩
  change 0 + cs.length ≤ _
  rw [Nat.zero_add]
  exact hle

end Appends

namespace MutableUnknownFieldSet

theorem appendField_appends {f : ℕ} {w : WireType} {emit : BoundM ByteVec Unit} {cs : List UInt8}
    (hf : 0 < f ∧ f ≤ maxNumber) (hemit : Writes emit cs) :
    Appends (appendField f w emit) (key f w.code ++ cs) := by
  intro s
  have hv := (validFieldNumber_iff f).mpr hf
  have hx := Appends.of_writes ((writes_tag (σ := Bound ByteVec) w hf.2).bind hemit)
  unfold appendField
  simp only [hv, Bool.not_true, Bool.false_eq_true, if_false]
  cases ho : (do writeTag f w; emit : BoundM ByteVec Unit) s with
  | ok u s' => exact (hx s).ok ho
  | error e s' =>
    have he := (hx s).error ho
    dsimp only
    split
    · exact he
    · exact he

theorem addVarint_appends {f : ℕ} (hf : 0 < f ∧ f ≤ maxNumber) (value : UInt64) :
    Appends (addVarint f value) (Tree.varint f value.toNat).encode :=
  appendField_appends hf (writes_varint value.toNat_lt)

theorem addLengthDelimited_appends {f : ℕ} (hf : 0 < f ∧ f ≤ maxNumber) {bytes : List UInt8}
    (hb : bytes.length ≤ usizeMax) :
    Appends (addLengthDelimited f (.external bytes)) (Tree.bytes f bytes).encode := by
  intro s
  have hv := (validFieldNumber_iff f).mpr hf
  unfold addLengthDelimited appendFieldTransactional
  simp only [hv, Bool.not_true, Bool.false_eq_true, if_false]
  split
  · next hfull =>
    refine ⟨by simp [Error.IsLimit], fun hroom => ?_⟩
    exact absurd (Nat.le_trans (Nat.le_add_right _ _) hroom.2) (Nat.not_le_of_lt hfull)
  have hwrites := (writes_tag (σ := Bound ByteVec) .len hf.2).bind
    ((writes_varint (Nat.lt_succ_of_le hb)).bind (.bytes bytes))
  have hbuild := (((Appends.reserve s.obj.size_le).bind
    ((Appends.appendTrivialRange s.obj.size_le).bind (Appends.of_writes hwrites))).staged s)
  split
  · next h => exact hbuild.ok h
  · next e s' h =>
    obtain ⟨he, hn⟩ := hbuild.error h
    refine ⟨he, fun hroom => hn ⟨hroom.1, ?_⟩⟩
    rw [List.nil_append, List.length_append]
    exact hroom.2

end MutableUnknownFieldSet

/-- A sum that is refused is past the address space. -/
theorem checkedAdd_refused {a b : ℕ} {e : Error} (h : checkedAdd a b = .error e) :
    e.IsLimit ∧ usizeMax < a + b := by
  refine ⟨?_, ?_⟩
  · unfold checkedAdd at h
    dsimp only at h
    split at h
    · cases h
      simp [Error.IsLimit]
    · cases h
  · by_contra hle
    rw [checkedAdd_of_le (Nat.le_of_not_lt hle)] at h
    cases h

theorem mergedStorage_exits (current addition : Bytes) (ctx : Context) :
    Exits (mergedStorage current addition ctx)
      (fun b ctx' => ctx.Spent ctx' ∧ b.val = current.val ++ addition.val)
      (fun e _ => e.IsLimit ∧ ¬(ctx.AlwaysGrants ∧
        current.val.length + addition.val.length ≤ ctx.limits.maxUnknownFieldBytes)) := by
  have hmerge : Exits (prepareUnknownFieldMerge current.val addition.val { ctx, obj := Vec.empty })
      (fun _ s => ctx.Spent s.ctx ∧ s.obj.items = current.val ++ addition.val)
      (fun e _ => e.IsLimit ∧ ¬(ctx.AlwaysGrants ∧
        current.val.length + addition.val.length ≤ ctx.limits.maxUnknownFieldBytes)) := by
    unfold prepareUnknownFieldMerge
    cases htotal : checkedAdd current.val.length addition.val.length with
    | error e =>
      obtain ⟨he, hlt⟩ := checkedAdd_refused htotal
      refine ⟨he, fun hroom => ?_⟩
      have hle := Nat.le_trans hroom.2 ctx.limits.maxUnknownFieldBytes_le
      exact absurd hle (Nat.not_le_of_lt hlt)
    | ok total =>
      have hle := current.2
      have hsum := ((checkedAdd_eq_ok current.2 addition.2).mp htotal)
      dsimp only
      split
      · next hfull =>
        refine ⟨by simp [Error.IsLimit], fun hroom => ?_⟩
        rw [hsum.2] at hfull
        exact absurd hroom.2 (Nat.not_le_of_lt hfull)
      have htotal_le : total ≤ usizeMax := by
        rw [hsum.2]
        exact hsum.1
      have hbuild := ((Appends.reserve htotal_le).bind ((Appends.appendTrivialRange current.2).bind
        (Appends.appendTrivialRange addition.2))).staged { ctx, obj := Vec.empty }
      refine hbuild.mono (fun _ _ h => h) fun e _ h => ⟨h.1, fun hroom => h.2 ⟨hroom.1, ?_⟩⟩
      rw [List.nil_append, List.length_append]
      exact hroom.2
  unfold mergedStorage
  cases h : prepareUnknownFieldMerge current.val addition.val { ctx, obj := Vec.empty } with
  | ok u s => exact hmerge.ok h
  | error e s => exact hmerge.error h

end Protocyte
