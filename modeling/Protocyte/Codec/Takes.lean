import Protocyte.Codec.Bounds
import Protocyte.Codec.Merge

/-! Parsing what is well formed: a parse takes exactly the bytes of its item, unless the item nests
too deep or its bounds do not suffice. -/
namespace Protocyte
open Foundation.Computation Foundation.Wire

variable {O P T α β : Type}

/-- Where `bs` comes next, a success takes exactly these bytes, and `Q` holds of it. What is counted
on the way is no more than `count`, and a failure is for want of bounds that suffice for it. -/
def Takes (B : Bounds) (x : ParseM O α) (s : Parse O) (bs : List UInt8) (Q : α → O → Prop)
    (count : ℕ := bs.length) : Prop :=
  bs <+: s.reader.rest → Exits (x s) (fun a t => B.Took count s t bs.length ∧ Q a t.obj)
    (fun e _ => B.Blocks count s.ctx s.reader e)

/-- A read that takes `bs`, whatever follows, and gives `a`. -/
def Reads (x : ReaderM α) (bs : List UInt8) (a : α) : Prop :=
  ∀ r : Reader, bs <+: r.rest → x r = .ok a (r.advance bs.length)

namespace Reads

variable {x : ReaderM α} {bs cs : List UInt8} {a : α} {b : β}

theorem pure (a : α) : Reads (Pure.pure a) [] a := fun r _ => by
  rw [List.length_nil, Reader.advance_zero]
  rfl

theorem bind {f : α → ReaderM β} (hx : Reads x bs a) (hf : Reads (f a) cs b) :
    Reads (x >>= f) (bs ++ cs) b := by
  intro r ⟨xs, hr⟩
  have hbs : bs <+: r.rest := ⟨cs ++ xs, by rw [← hr, List.append_assoc]⟩
  have hcs : cs <+: (r.advance bs.length).rest := ⟨xs, by
    rw [Reader.rest_advance, ← hr, List.append_assoc, List.drop_left]⟩
  rw [bind_of_ok (hx r hbs), hf _ hcs, Reader.advance_advance, List.length_append]

theorem map (f : α → β) (hx : Reads x bs a) : Reads (do return f (← x)) bs (f a) := by
  have h := hx.bind (f := fun a => Pure.pure (f a)) (pure (f a))
  rwa [List.append_nil] at h

theorem withField (n : ℕ) (hx : Reads x bs a) : Reads (withField n x) bs a := fun r hr =>
  withField_eq_ok.mpr (hx r hr)

theorem varint {v : ℕ} (h : Varint bs v) : Reads readVarint bs v := by
  intro r ⟨xs, hr⟩
  exact readVarint_of_varint h hr.symm

theorem tag {tag : Tag} (h : Key bs tag.fieldNumber tag.wireType.code) : Reads readTag bs tag := by
  intro r ⟨xs, hr⟩
  exact readTag_eq_ok.mpr ⟨bs, xs, hr.symm, h, rfl⟩

theorem size {n : ℕ} (h : Varint bs n) : Reads readLengthDelimitedSize bs n := by
  intro r ⟨xs, hr⟩
  exact readLengthDelimitedSize_eq_ok.mpr ⟨bs, xs, hr.symm, h, rfl⟩

theorem fixed {width : ℕ} (h : bs.length = width) :
    Reads (readFixed width) bs (Foundation.LittleEndian.ofBytes bs) := by
  intro r ⟨xs, hr⟩
  exact readFixed_eq_ok.mpr ⟨bs, xs, hr.symm, h, rfl, by rw [h]⟩

theorem read {count : ℕ} (h : bs.length = count) : Reads (Reader.read count) bs bs := by
  intro r ⟨xs, hr⟩
  have hle : count ≤ r.rest.length := by
    rw [← hr, List.length_append]
    omega
  rw [Reader.read_eq, if_pos hle, ← hr, ← h, List.take_left]

theorem skip {count : ℕ} (h : bs.length = count) : Reads (Reader.skip count) bs () := by
  intro r ⟨xs, hr⟩
  exact Reader.skip_splits.mpr ⟨bs, xs, hr.symm, h, rfl⟩

theorem expectWireType (w : WireType) (n : ℕ) : Reads (expectWireType w w n) [] () := by
  intro r _
  unfold Protocyte.expectWireType
  rw [if_neg (not_not_intro rfl), List.length_nil, Reader.advance_zero]

end Reads

theorem checkReader_canRead {s : Parse O} {bs : List UInt8} (hs : bs <+: s.reader.rest) :
    checkReader (Reader.canRead bs.length) s = .ok () s := by
  unfold checkReader
  rw [Reader.canRead_eq, if_pos hs.length_le]

theorem takeBlock_exits (count : ℕ) (ctx : Context) :
    Exits (takeBlock count ctx) (fun _ ctx' => ctx.Spent ctx')
      (fun e _ => e.IsLimit ∧ ¬ctx.AlwaysGrants) := by
  unfold takeBlock
  split
  · exact .refl _
  · cases hg : ctx.grants 0 with
    | true =>
      simp only [Context.allocate, hg, if_true]
      exact ctx.spent_allocate
    | false =>
      simp only [Context.allocate, hg, Bool.false_eq_true, if_false]
      refine ⟨by simp [Error.IsLimit], fun h => ?_⟩
      rw [h 0] at hg
      cases hg

namespace Takes

variable {B : Bounds} {x : ParseM O α} {s : Parse O} {bs cs : List UInt8} {Q Q' : α → O → Prop}
variable {c d n : ℕ}

theorem mono (hx : Takes B x s bs Q c) (hQ : ∀ a o, Q a o → Q' a o) : Takes B x s bs Q' c :=
  fun hs => (hx hs).mono (fun _ _ h => ⟨h.1, hQ _ _ h.2⟩) fun _ _ h => h

/-- A larger count. -/
theorem le (hx : Takes B x s bs Q c) (h : c ≤ d) : Takes B x s bs Q d := fun hs =>
  (hx hs).mono (fun _ _ ht => ⟨ht.1.mono h, ht.2⟩) fun _ _ he => he.imp fun hd => hd.mono h

/-- The bounds with more asked of the room. -/
private theorem suffice_room {P : Prop} {ctx : Context} {r : Reader} :
    Bounds.Suffice { B with room := B.room ∧ P } n ctx r ↔ B.Suffice n ctx r ∧ P :=
  ⟨fun h => ⟨{ h with room := h.room.1 }, h.room.2⟩, fun h => { h.1 with room := ⟨h.1.room, h.2⟩ }⟩

/-- What the bounds give at the start may be used all along. -/
theorem assuming {P : Prop} (hP : bs <+: s.reader.rest → B.Suffice c s.ctx s.reader → P)
    (hx : Takes { B with room := B.room ∧ P } x s bs Q c) : Takes B x s bs Q c := by
  intro hs
  have hstart (i : ℕ) (h : B.Suffice (c + i) s.ctx s.reader) :
      Bounds.Suffice { B with room := B.room ∧ P } (c + i) s.ctx s.reader :=
    suffice_room.mpr ⟨h, hP hs (h.mono (Nat.le_add_right c i))⟩
  refine (hx hs).mono ?_ fun e _ he => he.imp (hstart 0)
  intro a t ⟨ht, ha⟩
  exact ⟨⟨ht.moved, fun i hi => (suffice_room.mp (ht.suffice i (hstart i hi))).1⟩, ha⟩

theorem room (P : Prop) (hx : Takes B x s bs Q c) :
    Takes { B with room := B.room ∧ P } x s bs Q c := by
  intro hs
  refine (hx hs).mono ?_ fun e _ he => he.imp fun h => (suffice_room.mp h).1
  intro a t ⟨ht, ha⟩
  refine ⟨⟨ht.moved, fun i hi => ?_⟩, ha⟩
  obtain ⟨hi, hp⟩ := suffice_room.mp hi
  exact suffice_room.mpr ⟨ht.suffice i hi, hp⟩

theorem pure {a : α} (h : Q a s.obj) : Takes B (Pure.pure a) s [] Q c := fun _ => ⟨.refl _, h⟩

/-- What two steps count is added. -/
theorem seq {f : α → ParseM O β} {R : β → O → Prop} (hx : Takes B x s bs Q c)
    (hf : ∀ a t, s.reader.Moved t.reader bs.length → Q a t.obj → Takes B (f a) t cs R d) :
    Takes B (x >>= f) s (bs ++ cs) R (c + d) := by
  intro ⟨xs, hs⟩
  have hbs : bs <+: s.reader.rest := ⟨cs ++ xs, by rw [← hs, List.append_assoc]⟩
  refine Exits.bind ((hx hbs).mono (fun _ _ h => h) fun e _ he => he.imp fun h =>
    h.mono (Nat.le_add_right c d)) ?_
  intro a t ⟨ht, ha⟩
  have hcs : cs <+: t.reader.rest := ⟨xs, by
    rw [ht.moved.rest, ← hs, List.append_assoc, List.drop_left]⟩
  refine (hf a t ht.moved ha hcs).mono ?_ fun e _ he => he.imp (ht.suffice d)
  intro b u ⟨hu, hb⟩
  rw [List.length_append]
  exact ⟨ht.trans hu, hb⟩

theorem bind {f : α → ParseM O β} {R : β → O → Prop} (hx : Takes B x s bs Q)
    (hf : ∀ a t, s.reader.Moved t.reader bs.length → Q a t.obj → Takes B (f a) t cs R) :
    Takes B (x >>= f) s (bs ++ cs) R := by
  have h := hx.seq hf
  rwa [← List.length_append] at h

/-- A step that takes no bytes, and then the rest. -/
theorem before {f : α → ParseM O β} {R : β → O → Prop} (hx : Takes B x s [] Q)
    (hf : ∀ a t, s.reader.Moved t.reader 0 → Q a t.obj → Takes B (f a) t bs R c) :
    Takes B (x >>= f) s bs R c := by
  have h := hx.seq hf
  rwa [List.length_nil, Nat.zero_add] at h

/-- A step that counts nothing, and then the rest. -/
theorem uncounted {f : α → ParseM O β} {R : β → O → Prop} (hx : Takes B x s bs Q 0)
    (hf : ∀ a t, s.reader.Moved t.reader bs.length → Q a t.obj → Takes B (f a) t cs R c) :
    Takes B (x >>= f) s (bs ++ cs) R c := by
  have h := hx.seq hf
  rwa [Nat.zero_add] at h

/-- A step that only counts, and then the rest. -/
theorem charge {f : α → ParseM O β} {R : β → O → Prop} (hx : Takes B x s [] Q c) (h : c + d ≤ n)
    (hf : ∀ a t, s.reader.Moved t.reader 0 → Q a t.obj → Takes B (f a) t bs R d) :
    Takes B (x >>= f) s bs R n := (hx.seq hf).le h

/-- All bytes, and then a step that only counts. -/
theorem counting {f : α → ParseM O β} {R : β → O → Prop} (hx : Takes B x s bs Q 0)
    (hf : ∀ a t, s.reader.Moved t.reader bs.length → Q a t.obj → Takes B (f a) t [] R c) :
    Takes B (x >>= f) s bs R c := by
  have h := hx.uncounted hf
  rwa [List.append_nil] at h

/-- All bytes, and then a step that takes none. -/
theorem andThen {f : α → ParseM O β} {R : β → O → Prop} (hx : Takes B x s bs Q c)
    (hf : ∀ a t, s.reader.Moved t.reader bs.length → Q a t.obj → Takes B (f a) t [] R) :
    Takes B (x >>= f) s bs R c := by
  have h := hx.seq hf
  rwa [List.append_nil, List.length_nil, Nat.add_zero] at h

theorem get_bind {f : Parse O → ParseM O α} (hf : Takes B (f s) s bs Q c) :
    Takes B (MonadState.get >>= f) s bs Q c := hf

theorem ite {c' : Prop} [Decidable c'] {y : ParseM O α} (hx : c' → Takes B x s bs Q c)
    (hy : ¬c' → Takes B y s bs Q c) : Takes B (if c' then x else y) s bs Q c := by
  split
  · exact hx ‹_›
  · exact hy ‹_›

theorem dite {c' : Prop} [Decidable c'] {x : c' → ParseM O α} {y : ¬c' → ParseM O α}
    (hx : ∀ h : c', Takes B (x h) s bs Q c) (hy : ∀ h : ¬c', Takes B (y h) s bs Q c) :
    Takes B (if h : c' then x h else y h) s bs Q c := by
  split
  · exact hx ‹_›
  · exact hy ‹_›

/-- A step that is left out unless `c'` holds. -/
theorem optionally {c' : Prop} [Decidable c'] {x : ParseM O Unit} {f : Unit → ParseM O β}
    {Q : O → Prop} {R : β → O → Prop} (hx : c' → Takes B x s [] (fun _ o => Q o) c)
    (hn : ¬c' → Q s.obj) (h : c + d ≤ n)
    (hf : ∀ t, s.reader.Moved t.reader 0 → Q t.obj → Takes B (f ()) t bs R d) :
    Takes B (if c' then x >>= f else f ()) s bs R n :=
  ite (fun hc => (hx hc).charge h fun _ t ht hq => hf t ht hq) fun hc =>
    (hf s (.refl _) (hn hc)).le (Nat.le_trans (Nat.le_add_left d c) h)

theorem failField {code : ErrorCode} (n : ℕ)
    (h : code ∈ [ErrorCode.noMemory, .sizeLimit, .countLimit, .integerOverflow])
    (hn : ¬B.Suffice c s.ctx s.reader) : Takes B (failField code n : ParseM O α) s bs Q c :=
  fun _ => .inr ⟨h, hn⟩

theorem ofExcept {x : Except Error α} (hok : ∀ a, x = .ok a → Q a s.obj)
    (herror : ∀ e, x = .error e → B.Blocks c s.ctx s.reader e) : Takes B (ofExcept x) s [] Q c := by
  intro _
  cases h : x with
  | ok a => exact ⟨.refl _, hok a h⟩
  | error e => exact herror e h

theorem modifying (f : Parse O → Parse O) (hr : (f s).reader = s.reader)
    (hctx : (f s).ctx = s.ctx) {Q : Unit → O → Prop} (h : Q () (f s).obj) :
    Takes B (modify f : ParseM O Unit) s [] Q c := fun _ =>
  ⟨.spent (by rw [hctx]; exact .refl _) hr, h⟩

/-- A parse whose results are those of `x`, its errors with the same codes. -/
private theorem of_result {y : ParseM O α} (hx : Takes B x s bs Q c)
    (hok : ∀ a t, x s = .ok a t → y s = .ok a t)
    (herror : ∀ e t, x s = .error e t → ∃ e' t', y s = .error e' t' ∧ e'.code = e.code) :
    Takes B y s bs Q c := by
  intro hs
  cases h : x s with
  | ok a t =>
    rw [hok a t h]
    exact (hx hs).ok h
  | error e t =>
    obtain ⟨e', t', hy, hc⟩ := herror e t h
    rw [hy]
    exact ((hx hs).error h).congr_code hc

theorem withField (n : ℕ) (hx : Takes B x s bs Q c) : Takes B (withField n x) s bs Q c :=
  hx.of_result (fun _ _ h => withField_eq_ok.mpr h)
    fun e t h => ⟨_, t, withField_eq_error.mpr ⟨e, h, rfl⟩, rfl⟩

theorem located (hx : Takes B x s bs Q c) : Takes B (located x) s bs Q c := by
  refine hx.of_result (fun a t h => ?_) fun e t h =>
    ⟨{ e with offset := t.reader.position }, t, ?_, rfl⟩
  · unfold Protocyte.located
    rw [h]
  · unfold Protocyte.located
    rw [h]

theorem releasing (hx : Takes B x s bs Q c) : Takes B (releasing x) s bs Q c := by
  intro hs
  have hx := hx hs
  unfold Protocyte.releasing
  cases h : x s with
  | ok a t =>
    obtain ⟨ht, ha⟩ := hx.ok h
    refine ⟨⟨ht.moved, fun n hn => ?_⟩, ha⟩
    have hgrants (hg : t.ctx.AlwaysGrants) : t.ctx.popRecursion.AlwaysGrants := by
      unfold Context.AlwaysGrants
      rw [Context.popRecursion_grants]
      exact hg
    exact (ht.suffice n hn).congr_ctx t.ctx.popRecursion_limits hgrants
  | error e t =>
    have he := hx.error h
    exact he

theorem unwinding (n : ℕ) (hx : Takes B x s bs Q c) : Takes B (unwinding n x) s bs Q c := by
  refine hx.of_result (fun _ _ h => unwinding_eq_ok.mpr h) fun e t h =>
    ⟨e.withField n, { t with ctx := t.ctx.popRecursion }, ?_, rfl⟩
  unfold Protocyte.unwinding
  rw [h]

theorem popOnError (hx : Takes B x s bs Q c) : Takes B (popOnError x) s bs Q c := by
  refine hx.of_result (fun a t h => ?_) fun e t h =>
    ⟨e, { t with ctx := t.ctx.popRecursion }, ?_, rfl⟩
  · unfold Protocyte.popOnError
    rw [h]
  · unfold Protocyte.popOnError
    rw [h]

/-- A read counts nothing. -/
theorem onReader {x : ReaderM α} {a : α} (hx : Reads x bs a) :
    Takes B (onReader x : ParseM O α) s bs (fun b o => b = a ∧ o = s.obj) c := by
  intro hs
  have hle : bs.length ≤ s.reader.rest.length := hs.length_le
  have h : Protocyte.onReader x s = .ok a { s with reader := s.reader.advance bs.length } :=
    onReader_eq_ok.mpr ⟨_, hx _ hs, rfl⟩
  rw [h]
  exact ⟨.advance hle rfl, rfl, rfl⟩

/-- A read, and then what is done with what was read. -/
theorem reading {x : ReaderM α} {a : α} {f : α → ParseM O β} {R : β → O → Prop}
    (hx : Reads x bs a)
    (hf : ∀ t, s.reader.Moved t.reader bs.length → t.obj = s.obj → Takes B (f a) t cs R c) :
    Takes B (Protocyte.onReader x >>= f) s (bs ++ cs) R c := by
  refine (onReader hx).uncounted fun b t ht ⟨hb, ho⟩ => ?_
  rw [hb]
  exact hf t ht ho

theorem consume (budget : Reader.Budget) {count : ℕ} (n : ℕ) (h : count ≤ c) :
    Takes B (Protocyte.onReader (Reader.consume budget count n) : ParseM O Unit) s []
      (fun _ o => o = s.obj) c := by
  intro _
  have hallows := Reader.consume_allows budget count n s.reader
  have hexits := Reader.consume_exits budget count n s.reader
  refine Exits.intro ?_ ?_
  · intro _ t ht
    obtain ⟨r, hr, rfl⟩ := onReader_eq_ok.mp ht
    have htook : B.Took count s { s with reader := r } 0 :=
      .intro (.of_uncounted (hexits.ok hr)) rfl id (hallows.ok hr)
    exact ⟨htook.mono h, rfl⟩
  · intro e t ht
    obtain ⟨r, hr, rfl⟩ := onReader_eq_error.mp ht
    have hcode := (hexits.error hr).2
    refine .inr ⟨?_, fun hs => hallows.error hr ((hs.allows budget).mono h)⟩
    unfold Error.IsLimit
    rw [hcode]
    decide

/-- The check that the bytes are there, before they are taken. -/
theorem canRead {f : Unit → ParseM O β} {R : β → O → Prop} (hf : Takes B (f ()) s bs R c) :
    Takes B (Protocyte.checkReader (Reader.canRead bs.length) >>= f) s bs R c := by
  intro hs
  rw [bind_of_ok (checkReader_canRead hs)]
  exact hf hs

theorem canReadField {f : Unit → ParseM O β} {R : β → O → Prop} (n : ℕ)
    (hf : Takes B (f ()) s bs R c) :
    Takes B (Protocyte.withField n (Protocyte.checkReader (Reader.canRead bs.length)) >>= f) s bs
      R c := by
  intro hs
  rw [bind_of_ok (withField_eq_ok.mpr (checkReader_canRead hs))]
  exact hf hs

/-- What fails only without `P`, where the bounds give it. -/
theorem onContext {x : EStateM Error Context α} {P : Prop}
    (hx : Exits (x s.ctx) (fun a ctx => s.ctx.Spent ctx ∧ Q a s.obj) (fun e _ => e.IsLimit ∧ ¬P))
    (hP : B.Suffice c s.ctx s.reader → P) : Takes B (onContext x) s [] Q c := by
  intro _
  unfold Protocyte.onContext
  cases h : x s.ctx with
  | ok a ctx =>
    obtain ⟨hspent, ha⟩ := hx.ok h
    exact ⟨.spent hspent rfl, ha⟩
  | error e ctx =>
    obtain ⟨hlimit, hn⟩ := hx.error h
    exact .inr ⟨hlimit, fun hs => hn (hP hs)⟩

theorem takeBlock (count : ℕ) :
    Takes B (Protocyte.onContext (takeBlock count) : ParseM O Unit) s [] (fun _ o => o = s.obj) c :=
  onContext ((takeBlock_exits count s.ctx).mono (fun _ _ h => ⟨h, rfl⟩) fun _ _ h => h)
    fun hs => hs.grants

theorem pushRecursion (n : ℕ) :
    Takes B (pushRecursion n : ParseM O Unit) s [] (fun _ o => o = s.obj) c := by
  intro _
  unfold Protocyte.pushRecursion
  split
  · exact Or.inl rfl
  · exact ⟨.intro (.refl _) rfl id fun budget n h => h.mono (Nat.le_add_left n c), rfl⟩

theorem popRecursion : Takes B (popRecursion : ParseM O Unit) s [] (fun _ o => o = s.obj) c := by
  intro _
  refine ⟨.intro (.refl _) s.ctx.popRecursion_limits ?_ fun budget n h =>
    h.mono (Nat.le_add_left n c), rfl⟩
  intro hg i
  change s.ctx.popRecursion.grants i = true
  rw [Context.popRecursion_grants]
  exact hg i

/-- An operation of the object. -/
theorem onBound {x : BoundM O α} {P : Prop}
    (hx : Exits (x s.toBound) (fun a b => s.ctx.Spent b.ctx ∧ Q a b.obj)
      (fun e _ => e.IsLimit ∧ ¬P))
    (hP : B.Suffice c s.ctx s.reader → P) : Takes B (onBound x) s [] Q c := by
  intro _
  refine Exits.intro ?_ ?_
  · intro a t h
    obtain ⟨b, hb, rfl⟩ := onBound_eq_ok.mp h
    obtain ⟨hspent, ha⟩ := hx.ok hb
    exact ⟨.spent hspent rfl, ha⟩
  · intro e t h
    obtain ⟨b, hb, rfl⟩ := onBound_eq_error.mp h
    obtain ⟨hlimit, hn⟩ := hx.error hb
    exact .inr ⟨hlimit, fun hs => hn (hP hs)⟩

/-- A parse of a part. -/
theorem zoom (l : Lens O P) {x : ParseM P α} {Q : α → P → Prop}
    (hx : Takes B x { ctx := s.ctx, obj := l.get s.obj, reader := s.reader } bs Q c) :
    Takes B (zoom l x) s bs (fun a o => ∃ p, Q a p ∧ o = l.set p s.obj) c := by
  intro hs
  have hx := hx hs
  unfold Protocyte.zoom
  cases h : x { ctx := s.ctx, obj := l.get s.obj, reader := s.reader } with
  | ok a t =>
    obtain ⟨ht, ha⟩ := hx.ok h
    exact ⟨⟨ht.moved, ht.suffice⟩, t.obj, ha, rfl⟩
  | error e t =>
    have he := hx.error h
    exact he

theorem inTemporary (init : T) {x : ParseM T α} {Q : α → T → Prop}
    (hx : Takes B x { ctx := s.ctx, obj := init, reader := s.reader } bs Q c) :
    Takes B (inTemporary init x : ParseM O (α × T)) s bs (fun p o => Q p.1 p.2 ∧ o = s.obj) c := by
  intro hs
  have hx := hx hs
  unfold Protocyte.inTemporary
  cases h : x { ctx := s.ctx, obj := init, reader := s.reader } with
  | ok a t =>
    obtain ⟨ht, ha⟩ := hx.ok h
    exact ⟨⟨ht.moved, ht.suffice⟩, ha, rfl⟩
  | error e t =>
    have he := hx.error h
    exact he

end Takes

namespace Reader

/-- The end of the reader is where nothing is left to read. -/
def Steady : Reader → Prop
  | slice _ | staged .. => True
  | parseBudget inner .. | ref inner => inner.Steady
  | limited inner remaining => remaining ≤ inner.rest.length

theorem Steady.eof_iff {r : Reader} (h : r.Steady) : r.eof = true ↔ r.rest = [] := by
  induction r with
  | slice r => exact r.eof_iff
  | staged r budget _ => exact r.eof_iff
  | ref inner ih => exact ih h
  | parseBudget inner remaining maxRep maxMap rep map ih =>
    simp only [eof, rest, Bool.or_eq_true, beq_iff_eq, List.take_eq_nil_iff, ih h]
  | limited inner remaining _ =>
    have hle : remaining ≤ inner.rest.length := h
    simp only [eof, rest, beq_iff_eq, List.take_eq_nil_iff]
    constructor
    · exact Or.inl
    · rintro (hzero | hnil)
      · exact hzero
      · rw [hnil, List.length_nil] at hle
        exact Nat.le_zero.mp hle

theorem steady_uncounted (r : Reader) : r.uncounted.Steady ↔ r.Steady := by
  induction r with
  | slice r | staged r budget _ => exact Iff.rfl
  | parseBudget inner remaining maxRep maxMap rep map ih => exact ih
  | ref inner ih => exact ih
  | limited inner remaining _ =>
    unfold uncounted Steady
    rw [rest_uncounted]

theorem Steady.advance {r : Reader} (h : r.Steady) {k : ℕ} (hk : k ≤ r.rest.length) :
    (r.advance k).Steady := by
  induction r with
  | slice r | staged r budget _ => trivial
  | ref inner ih => exact ih h hk
  | parseBudget inner remaining maxRep maxMap rep map ih =>
    have hle : k ≤ (inner.rest.take remaining).length := hk
    rw [List.length_take] at hle
    exact ih h (by omega)
  | limited inner remaining _ =>
    have hle : remaining ≤ inner.rest.length := h
    unfold Reader.advance Steady
    rw [rest_advance, List.length_drop]
    omega

theorem Steady.moved {r r' : Reader} {k : ℕ} (h : r.Steady) (hm : r.Moved r' k) : r'.Steady := by
  rw [← steady_uncounted, hm.uncounted]
  refine ((steady_uncounted r).mpr h).advance ?_
  rw [rest_uncounted]
  exact hm.le

end Reader

namespace Takes

variable {B : Bounds} {x : ParseM O α} {s : Parse O} {bs cs : List UInt8} {Q : α → O → Prop} {c : ℕ}

/-- A parse of exactly these bytes. -/
theorem limited (hx : ∀ t : Parse O, t.obj = s.obj → t.reader.rest = bs → t.reader.Steady →
    Takes B x t bs Q c) : Takes B (through (Reader.limited · bs.length) x) s bs Q c := by
  intro ⟨xs, hs⟩
  have hle : bs.length ≤ s.reader.rest.length := by
    rw [← hs, List.length_append]
    exact Nat.le_add_right _ _
  have hrest : (Reader.limited s.reader bs.length).rest = bs := by
    change s.reader.rest.take bs.length = bs
    rw [← hs, List.take_left]
  have hstart (n : ℕ) (h : B.Suffice n s.ctx s.reader) :
      B.Suffice n s.ctx (.limited s.reader bs.length) := by
    refine { h with message_le := ?_, string_le := ?_ }
    · rw [hrest]
      exact Nat.le_trans hle h.message_le
    · rw [hrest]
      exact Nat.le_trans hle h.string_le
  have hx := hx { s with reader := .limited s.reader bs.length } rfl hrest hle
    ⟨[], by rw [List.append_nil, hrest]⟩
  unfold through
  cases h : x { s with reader := .limited s.reader bs.length } with
  | ok a t =>
    obtain ⟨ht, ha⟩ := hx.ok h
    exact ⟨ht.unwrap hstart ht.moved.wrapped_limited fun budget i =>
      Reader.allows_wrapped (s := { data := [] }) (.inl ht.moved), ha⟩
  | error e t =>
    have he := (hx.error h).imp (hstart c)
    exact he

/-- A parse of bytes of its own, which are part of what was there. -/
theorem staged {reader : SliceReader} (hr : reader.rest = bs)
    (hle : B.Suffice c s.ctx s.reader → bs.length ≤ B.limits.maxMessageBytes ∧
      bs.length ≤ B.limits.maxStringBytes)
    (hx : ∀ t : Parse O, t.obj = s.obj →
      t.reader.rest = bs → t.reader.Steady → Takes B x t bs Q c) :
    Takes B (through (Reader.staged reader ·) x) s [] Q c := by
  intro _
  have hrest : (Reader.staged reader s.reader).rest = bs := hr
  have hstart (n : ℕ) (h : B.Suffice (c + n) s.ctx s.reader) :
      B.Suffice (c + n) s.ctx (.staged reader s.reader) := by
    have hlength := hle (h.mono (Nat.le_add_right c n))
    refine { h with message_le := ?_, string_le := ?_ }
    · rw [hrest]
      exact hlength.1
    · rw [hrest]
      exact hlength.2
  have hx := hx { s with reader := .staged reader s.reader } rfl hr trivial
    ⟨[], by rw [List.append_nil]; exact hr.symm⟩
  unfold through
  cases h : x { s with reader := .staged reader s.reader } with
  | ok a t =>
    obtain ⟨ht, ha⟩ := hx.ok h
    have hmoved : s.reader.Moved t.reader.wrapped 0 := ht.moved.wrapped_staged
    refine ⟨⟨hmoved, fun n hn => ?_⟩, ha⟩
    have hlast := ht.suffice n (hstart n hn)
    have hallows (budget : Reader.Budget) : t.reader.wrapped.Allows budget n :=
      Reader.allows_wrapped (i := s.reader) (a := 0) (.inr (.inr ht.moved))
        (hlast.allows budget)
    have hsame : t.reader.wrapped.rest.length = s.reader.rest.length := by
      rw [hmoved.rest, List.drop_zero]
    exact { hlast with
            message_le := by rw [hsame]; exact hn.message_le
            string_le := by rw [hsame]; exact hn.string_le
            allows := hallows }
  | error e t =>
    have he := (hx.error h).imp (hstart 0)
    exact he

theorem ref (hx : ∀ t : Parse O, t.obj = s.obj → t.reader.rest = s.reader.rest →
    (s.reader.Steady → t.reader.Steady) → Takes B x t bs Q c) :
    Takes B (through Reader.ref x) s bs Q c := by
  intro hs
  have hx := hx { s with reader := .ref s.reader } rfl rfl id hs
  unfold through
  cases h : x { s with reader := .ref s.reader } with
  | ok a t =>
    obtain ⟨ht, ha⟩ := hx.ok h
    exact ⟨ht.unwrap (fun _ hs => { hs with }) ht.moved.wrapped_ref fun budget i =>
      Reader.allows_wrapped (a := 0) (s := { data := [] }) (.inr (.inl ht.moved)), ha⟩
  | error e t =>
    have he : B.Blocks c s.ctx s.reader e := (hx.error h).imp fun hs => { hs with }
    exact he

theorem finish (hsteady : s.reader.Steady) (hrest : s.reader.rest = []) :
    Takes B (Protocyte.onReader Reader.finish : ParseM O Unit) s [] (fun _ o => o = s.obj) c := by
  intro _
  have hfinish : Reader.finish s.reader = .ok () s.reader := by
    cases hr : s.reader with
    | slice r | parseBudget inner a b c d e | ref inner | staged r budget => rfl
    | limited inner remaining =>
      rw [hr] at hsteady hrest
      have hzero : remaining = 0 := by
        have heof := hsteady.eof_iff.mpr hrest
        simpa [Reader.eof] using heof
      unfold Reader.finish
      rw [hzero]
      have hskip := Reader.skip_eq (.limited inner 0) 0
      rw [if_pos (Nat.zero_le _), Reader.advance_zero] at hskip
      exact hskip
  have h : Protocyte.onReader Reader.finish s = .ok () s :=
    onReader_eq_ok.mpr ⟨_, hfinish, rfl⟩
  rw [h]
  exact ⟨.refl _, rfl⟩

/-- The loop over the fields of a message, where `J` holds of the object after each of them. -/
theorem fieldLoop {ι : Type} {step : Tag → ParseM O Unit} {bytes : ι → List UInt8}
    {J : List ι → O → Prop} {items : List ι}
    (hstep : ∀ pre i (t : Parse O), pre ++ [i] <+: items → J pre t.obj →
      Takes B (do step (← Protocyte.onReader readTag)) t (bytes i) fun _ o => J (pre ++ [i]) o)
    (hpos : ∀ i ∈ items, bytes i ≠ []) (pre post : List ι) (hitems : pre ++ post = items) (m : ℕ)
    (hrest : s.reader.rest = post.flatMap bytes) (hm : s.reader.rest.length < m)
    (hsteady : s.reader.Steady) (hJ : J pre s.obj) :
    Takes B (fieldLoop step m) s s.reader.rest fun _ o => J items o := by
  induction m generalizing s pre post with
  | zero => exact absurd hm (Nat.not_lt_zero _)
  | succ m ih =>
    have hloop : Protocyte.fieldLoop step (m + 1) s = if s.reader.eof then .ok () s
        else ((do step (← Protocyte.onReader readTag) : ParseM O Unit) >>=
          fun _ => Protocyte.fieldLoop step m) s := by
      rw [bind_assoc]
      rfl
    intro hs
    rw [hloop]
    cases post with
    | nil =>
      rw [List.flatMap_nil] at hrest
      have heof := hsteady.eof_iff.mpr hrest
      rw [if_pos heof, hrest, ← hitems, List.append_nil]
      exact ⟨.refl _, hJ⟩
    | cons i post =>
      rw [List.flatMap_cons] at hrest
      have hi : bytes i ≠ [] := hpos i (by rw [← hitems]; simp)
      have hneof : ¬ s.reader.eof = true := by
        rw [hsteady.eof_iff, hrest, List.append_eq_nil_iff]
        exact fun h => hi h.1
      have hpre : pre ++ [i] ++ post = items := by rw [← hitems]; simp
      have hlen : 0 < (bytes i).length := List.length_pos_iff.mpr hi
      rw [if_neg hneof]
      suffices htakes : Takes B ((do step (← Protocyte.onReader readTag)) >>=
          fun _ => Protocyte.fieldLoop step m) s (bytes i ++ post.flatMap bytes)
            fun _ o => J items o by
        rw [← hrest] at htakes
        exact htakes hs
      refine (hstep pre i s ⟨post, hpre⟩ hJ).bind ?_
      intro _ t ht ho
      have htrest : t.reader.rest = post.flatMap bytes := by
        rw [ht.rest, hrest, List.drop_left]
      have h := ih (s := t) (pre ++ [i]) post hpre htrest ?_ (hsteady.moved ht) ho
      · rw [htrest] at h
        exact h
      · rw [htrest]
        rw [hrest, List.length_append] at hm
        omega

theorem forEachField {ι : Type} {step : Tag → ParseM O Unit} {bytes : ι → List UInt8}
    {J : List ι → O → Prop} {items : List ι}
    (hstep : ∀ pre i (t : Parse O), pre ++ [i] <+: items → J pre t.obj →
      Takes B (do step (← Protocyte.onReader readTag)) t (bytes i) fun _ o => J (pre ++ [i]) o)
    (hpos : ∀ i ∈ items, bytes i ≠ []) (hrest : s.reader.rest = items.flatMap bytes)
    (hsteady : s.reader.Steady) (hJ : J [] s.obj) :
    Takes B (forEachField step) s s.reader.rest fun _ o => J items o := by
  have h := fieldLoop hstep hpos [] items rfl (s.reader.rest.length + 1) hrest
    (Nat.lt_succ_self _) hsteady hJ
  exact h

end Takes

/-- The records are taken one after the other, from any reader, and then `Q` holds. -/
def Handles (B : Bounds) (step : Tag → ParseM O Unit) (Q : O → Prop) : List (List UInt8) → O → Prop
  | [], o => Q o
  | bs :: records, o => ∀ t : Parse O, t.obj = o →
      Takes B (do step (← onReader readTag)) t bs fun _ o' => Handles B step Q records o'

namespace Handles

variable {B : Bounds} {step : Tag → ParseM O Unit} {Q R : O → Prop} {o : O}

theorem mono {records : List (List UInt8)} (h : Handles B step Q records o)
    (hQ : ∀ o, Q o → R o) : Handles B step R records o := by
  induction records generalizing o with
  | nil => exact hQ o h
  | cons bs records ih => exact fun t ht => (h t ht).mono fun _ _ h => ih h

theorem append {xs ys : List (List UInt8)} (h : Handles B step (Handles B step Q ys) xs o) :
    Handles B step Q (xs ++ ys) o := by
  induction xs generalizing o with
  | nil => exact h
  | cons bs xs ih => exact fun t ht => (h t ht).mono fun _ _ h => ih h

/-- One record, and then the rest. -/
theorem cons {bs : List UInt8} {ys : List (List UInt8)}
    (h : Handles B step (Handles B step Q ys) [bs] o) : Handles B step Q (bs :: ys) o := h

theorem forEachField {s : Parse O} {records : List (List UInt8)}
    (h : Handles B step Q records s.obj) (hpos : ∀ bs ∈ records, bs ≠ [])
    (hrest : s.reader.rest = records.flatten) (hsteady : s.reader.Steady) :
    Takes B (forEachField step) s s.reader.rest fun _ o => Q o := by
  rw [← List.flatMap_id] at hrest
  have hstep (pre : List (List UInt8)) (bs : List UInt8) (t : Parse O)
      (hpre : pre ++ [bs] <+: records) (ht : Handles B step Q (records.drop pre.length) t.obj) :
      Takes B (do step (← onReader readTag)) t (id bs) fun _ o =>
        Handles B step Q (records.drop (pre ++ [bs]).length) o := by
    obtain ⟨post, hpost⟩ := hpre
    have hdrop : records.drop pre.length = bs :: records.drop (pre ++ [bs]).length := by
      rw [← hpost, List.drop_left, List.append_assoc, List.drop_left]
      rfl
    rw [hdrop] at ht
    exact ht t rfl
  have htakes := Takes.forEachField (J := fun pre o => Handles B step Q (records.drop pre.length) o)
    hstep hpos hrest hsteady h
  rw [List.drop_length] at htakes
  exact htakes

end Handles

end Protocyte
