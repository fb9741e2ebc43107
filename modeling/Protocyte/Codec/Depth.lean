import Protocyte.Codec.Occurrence
import Protocyte.Codec.Nesting

/-! Which bytes a parse takes, and what the bytes show when it is rejected for its nesting. -/
namespace Protocyte
open Foundation.Computation Foundation.Wire

variable {Sub : ℕ → Type} {O P T α β : Type}

theorem Reader.rest_of_eof {r : Reader} (h : r.eof = true) : r.rest = [] := by
  induction r with
  | slice r | staged r b _ => exact r.eof_iff.mp h
  | parseBudget inner remaining a b c d ih =>
    rcases Bool.or_eq_true _ _ |>.mp h with h | h
    · rw [rest, beq_iff_eq.mp h, List.take_zero]
    · rw [rest, ih h, List.take_nil]
  | limited inner remaining _ => rw [rest, beq_iff_eq.mp h, List.take_zero]
  | ref inner ih => exact ih h

/-- The parse `t` is `s` past some bytes, with as many levels left. -/
structure Past (s : Parse O) (t : Parse P) (bs : List UInt8) : Prop where
  moved : s.reader.Moved t.reader bs.length
  rest : s.reader.rest = bs ++ t.reader.rest
  balanced : s.ctx.Balanced t.ctx

namespace Past

variable {s : Parse O} {t : Parse P} {u : Parse T} {bs cs : List UInt8}

theorem levels (h : Past s t bs) : t.levels = s.levels := by
  unfold Parse.levels
  rw [h.balanced.limits, h.balanced.recursionDepth]

theorem trans (h : Past s t bs) (h' : Past t u cs) : Past s u (bs ++ cs) where
  moved := by
    rw [List.length_append]
    exact h.moved.trans h'.moved
  rest := by rw [h.rest, h'.rest, List.append_assoc]
  balanced := h.balanced.trans h'.balanced

theorem of_moved {k : ℕ} (h : s.reader.Moved t.reader k) (hctx : s.ctx.Balanced t.ctx) :
    Past s t (s.reader.rest.take k) where
  moved := by
    rw [List.length_take, Nat.min_eq_left h.le]
    exact h
  rest := by rw [h.rest, List.take_append_drop]
  balanced := hctx

theorem of_same (h : t.reader = s.reader) (hctx : s.ctx.Balanced t.ctx) : Past s t [] := by
  have hmoved : s.reader.Moved t.reader 0 := by
    rw [h]
    exact .refl _
  exact of_moved hmoved hctx

theorem refl (s : Parse O) : Past s s [] := of_same rfl (.refl _)

theorem advance {r : Reader} {xs : List UInt8} (hs : s.reader.rest = bs ++ xs)
    (hr : r = s.reader.advance bs.length) : Past s { s with reader := r } bs := by
  have hle : bs.length ≤ s.reader.rest.length := by
    rw [hs, List.length_append]
    exact Nat.le_add_right _ _
  have h := of_moved (s := s) (t := { s with reader := r }) (k := bs.length)
    (by rw [hr]; exact .advance hle) (.refl _)
  rwa [hs, List.take_left] at h

theorem length_le (h : Past s t bs) : t.reader.rest.length ≤ s.reader.rest.length := by
  rw [h.rest, List.length_append]
  exact Nat.le_add_left _ _

end Past

/-- What a read takes, by its value. -/
def Words (x : ReaderM α) (W : α → List UInt8 → Prop) : Prop := ∀ r a r', x r = .ok a r' →
  ∃ bs xs, r.rest = bs ++ xs ∧ W a bs ∧ r' = r.advance bs.length

/-- A success takes bytes of `W` and has not met `N`, which is about the levels left and the bytes
to come; a failure for nesting has. -/
def Consumes (W : List UInt8 → Prop) (N : ℕ → List UInt8 → Prop) (x : ParseM O α) : Prop :=
  ∀ s, Exits (x s) (fun _ t => ∃ bs, Past s t bs ∧ W bs ∧ ¬N s.levels s.reader.rest)
    (fun e _ => e.code = .recursionLimit → N s.levels s.reader.rest)

/-- The parse takes bytes of `W`, and does not fail for nesting. -/
abbrev Flat (W : List UInt8 → Prop) (x : ParseM O α) : Prop := Consumes W (fun _ _ => False) x

/-- The parse takes no bytes, and does not fail for nesting. -/
abbrev Still (x : ParseM O α) : Prop := Flat (· = []) x

namespace Consumes

variable {W V : List UInt8 → Prop} {N : ℕ → List UInt8 → Prop} {x : ParseM O α}

theorem mono (hx : Consumes W N x) (hW : ∀ bs, W bs → V bs) : Consumes V N x := by
  intro s
  refine Exits.mono (hx s) ?_ fun _ _ h => h
  intro _ t ⟨bs, ht, hbs, hn⟩
  exact ⟨bs, ht, hW bs hbs, hn⟩

/-- A step that reads nothing, before. -/
theorem after {y : ParseM O β} {f : β → ParseM O α} (hy : Still y)
    (hf : ∀ b, Consumes W N (f b)) : Consumes W N (y >>= f) := by
  intro s
  refine Exits.bind (Exits.mono (hy s) (fun _ _ h => h) fun e _ h he => (h he).elim) ?_
  intro b t ⟨cs, ht, hcs, _⟩
  subst hcs
  have hrest : t.reader.rest = s.reader.rest := ht.rest.symm
  have hft := hf b t
  rw [hrest, ht.levels] at hft
  refine Exits.mono hft ?_ fun _ _ h => h
  intro _ u ⟨bs, hu, hbs, hn⟩
  exact ⟨bs, ht.trans hu, hbs, hn⟩

/-- A step that reads nothing, behind. -/
theorem before {f : α → ParseM O β} (hx : Consumes W N x) (hf : ∀ a, Still (f a)) :
    Consumes W N (x >>= f) := by
  intro s
  refine Exits.bind (Exits.mono (hx s) (fun _ _ h => h) fun _ _ h => h) ?_
  intro a t ⟨bs, ht, hbs, hn⟩
  refine Exits.mono (hf a t) ?_ fun e _ h he => (h he).elim
  intro _ u ⟨cs, hu, hcs, _⟩
  subst hcs
  have htu := ht.trans hu
  rw [List.append_nil] at htu
  exact ⟨bs, htu, hbs, hn⟩

theorem ite {c : Prop} [Decidable c] {y : ParseM O α} (hx : c → Consumes W N x)
    (hy : ¬c → Consumes W N y) : Consumes W N (if c then x else y) := by
  split
  · exact hx ‹_›
  · exact hy ‹_›

theorem withField (f : ℕ) (hx : Consumes W N x) : Consumes W N (withField f x) := by
  intro s
  have hs := hx s
  unfold Protocyte.withField
  cases h : x s with
  | ok a t => exact hs.ok h
  | error e t =>
    have he := hs.error h
    exact he

theorem located (hx : Consumes W N x) : Consumes W N (located x) := by
  intro s
  have hs := hx s
  unfold Protocyte.located
  cases h : x s with
  | ok a t => exact hs.ok h
  | error e t =>
    have he := hs.error h
    exact he

theorem zoom (l : Lens O P) {x : ParseM P α} (hx : Consumes W N x) :
    Consumes W N (zoom l x) := by
  intro s
  have hs := hx { ctx := s.ctx, obj := l.get s.obj, reader := s.reader }
  unfold Protocyte.zoom
  cases h : x { ctx := s.ctx, obj := l.get s.obj, reader := s.reader } with
  | ok a t =>
    obtain ⟨bs, ht, hbs, hn⟩ := hs.ok h
    exact ⟨bs, ⟨ht.moved, ht.rest, ht.balanced⟩, hbs, hn⟩
  | error e t => exact hs.error h

theorem inTemporary (init : T) {x : ParseM T α} (hx : Consumes W N x) :
    Consumes W N (inTemporary init x : ParseM O (α × T)) := by
  intro s
  have hs := hx { ctx := s.ctx, obj := init, reader := s.reader }
  unfold Protocyte.inTemporary
  cases h : x { ctx := s.ctx, obj := init, reader := s.reader } with
  | ok a t =>
    obtain ⟨bs, ht, hbs, hn⟩ := hs.ok h
    exact ⟨bs, ⟨ht.moved, ht.rest, ht.balanced⟩, hbs, hn⟩
  | error e t => exact hs.error h

theorem of_exits (h : ∀ s, Exits (x s) (fun _ t => ∃ bs, Past s t bs ∧ W bs)
    (fun e _ => e.code ≠ .recursionLimit)) : Flat W x := by
  intro s
  refine (h s).mono ?_ fun _ _ he => he
  exact fun _ _ ⟨bs, ht, hbs⟩ => ⟨bs, ht, hbs, id⟩

/-- A read, and what is done with the value read. -/
theorem read_bind {x : ReaderM α} {W : α → List UInt8 → Prop} {V : α → List UInt8 → Prop}
    {U : List UInt8 → Prop} {f : α → ParseM O β} (hx : Moves x) (hW : Words x W)
    (hf : ∀ a, Flat (V a) (f a)) (hU : ∀ a bs cs, W a bs → V a cs → U (bs ++ cs)) :
    Flat U (onReader x >>= f) := by
  intro s
  refine Exits.bind (Q := fun a t => ∃ bs, Past s t bs ∧ W a bs) (Exits.intro ?_ ?_) ?_
  · intro a t h
    obtain ⟨r, hr, rfl⟩ := onReader_eq_ok.mp h
    obtain ⟨bs, xs, hbs, hw, hadvance⟩ := hW _ _ _ hr
    exact ⟨bs, .advance hbs hadvance, hw⟩
  · intro e t h
    obtain ⟨r, hr, rfl⟩ := onReader_eq_error.mp h
    exact ((hx s.reader).error hr).1
  · intro a t ⟨bs, ht, hbs⟩
    refine Exits.mono (hf a t) ?_ fun _ _ h => h
    intro _ u ⟨cs, hu, hcs, _⟩
    exact ⟨bs ++ cs, ht.trans hu, hU a bs cs hbs hcs, id⟩

/-- A read that says where it leaves the reader. -/
theorem ofReader {x : ReaderM α} {W : α → List UInt8 → Prop} (hx : Moves x) (hW : Words x W) :
    Flat (fun bs => ∃ a, W a bs) (onReader x : ParseM O α) := by
  have hpure : ∀ a, Flat (· = []) (pure a : ParseM O α) :=
    fun a s => ⟨[], .refl s, rfl, id⟩
  have h := read_bind (U := fun bs => ∃ a, W a bs) hx hW hpure ?_
  · rwa [bind_pure] at h
  · intro a bs cs hbs hcs
    subst hcs
    rw [List.append_nil]
    exact ⟨a, hbs⟩

theorem pure (a : α) : Still (Pure.pure a : ParseM O α) := fun s => ⟨[], .refl s, rfl, id⟩

theorem get : Still (MonadState.get : ParseM O (Parse O)) := fun s => ⟨[], .refl s, rfl, id⟩

theorem failField {code : ErrorCode} (f : ℕ) (hr : code ≠ .recursionLimit) :
    Consumes W N (failField code f : ParseM O α) := fun _ he => absurd he hr

theorem modify (f : Parse O → Parse O) (hf : ∀ s, (f s).ctx = s.ctx ∧ (f s).reader = s.reader) :
    Still (modify f : ParseM O Unit) := by
  refine of_exits fun s => ?_
  obtain ⟨hctx, hreader⟩ := hf s
  refine ⟨[], .of_same hreader ?_, rfl⟩
  rw [hctx]
  exact .refl _

theorem ofExcept {r : Except Error α} (hr : ∀ e, r = .error e → e.code ≠ .recursionLimit) :
    Still (ofExcept r : ParseM O α) := by
  intro s
  cases r with
  | ok a => exact ⟨[], .refl s, rfl, id⟩
  | error e => exact hr e rfl

theorem consume (budget : Reader.Budget) (count f : ℕ) :
    Still (onReader (Reader.consume budget count f) : ParseM O Unit) := by
  refine of_exits fun s => Exits.intro ?_ ?_
  · intro a t h
    obtain ⟨r, hr, rfl⟩ := onReader_eq_ok.mp h
    have hmoved := Reader.Moved.of_uncounted ((Reader.consume_exits budget count f _).ok hr)
    exact ⟨_, .of_moved hmoved (.refl _), List.take_zero⟩
  · intro e t h
    obtain ⟨r, hr, rfl⟩ := onReader_eq_error.mp h
    exact ((consume_moves budget count f s.reader).error hr).1

theorem expectWireType (w expected : WireType) (f : ℕ) :
    Still (onReader (expectWireType w expected f) : ParseM O Unit) := by
  have hword : Words (Protocyte.expectWireType w expected f) fun _ bs => bs = [] := by
    intro r a r' h
    unfold Protocyte.expectWireType at h
    split at h
    · cases h
    · cases h
      exact ⟨[], r.rest, rfl, rfl, r.advance_zero.symm⟩
  exact (ofReader (Forward.expectWireType w expected f).moves hword).mono fun _ ⟨_, h⟩ => h

theorem checkReader {check : Reader → Except Error α} (hcheck : ∀ r e, check r = .error e →
    e.code ≠ .recursionLimit) : Still (checkReader check : ParseM O α) := by
  refine of_exits fun s => ?_
  unfold Protocyte.checkReader
  cases h : check s.reader with
  | ok a => exact ⟨[], .refl s, rfl⟩
  | error e => exact hcheck _ e h

theorem canRead (count : ℕ) :
    Still (Protocyte.checkReader (Reader.canRead count) : ParseM O Unit) := by
  refine checkReader fun r e h => ?_
  rw [Reader.canRead_eq] at h
  split at h
  · cases h
  · cases h
    rcases r.shortage_code count with he | he
    · rw [he]
      decide
    · rw [he]
      decide

theorem onContext {x : EStateM Error Context α} {A : α → Prop} (hx : Allocates x A) :
    Still (onContext x : ParseM O α) := by
  refine of_exits fun s => ?_
  have hs := hx s.ctx
  unfold Protocyte.onContext
  cases h : x s.ctx with
  | ok a ctx => exact ⟨[], .of_same rfl (hs.ok h).1.balanced, rfl⟩
  | error e ctx => exact (hs.error h).2.2

theorem onBound {E : O → O → Prop} {Q : O → α → O → Prop} {x : BoundM O α} (hx : Edits E Q x) :
    Still (onBound x) := by
  refine of_exits fun s => Exits.intro ?_ ?_
  · intro a t h
    obtain ⟨b, hb, rfl⟩ := onBound_eq_ok.mp h
    exact ⟨[], .of_same rfl ((hx s.toBound).ok hb).1.balanced, rfl⟩
  · intro e t h
    obtain ⟨b, hb, rfl⟩ := onBound_eq_error.mp h
    exact ((hx s.toBound).error hb).2.1

end Consumes

namespace Words

theorem readVarint : Words readVarint fun v bs => Varint bs v := by
  intro r v r' h
  obtain ⟨bs, xs, hr, hv, rfl⟩ := readVarint_eq_ok.mp h
  exact ⟨bs, xs, hr, hv, rfl⟩

theorem readFixed (width : ℕ) : Words (readFixed width) fun _ bs => bs.length = width := by
  intro r v r' h
  obtain ⟨bs, xs, hr, hl, -, rfl⟩ := readFixed_eq_ok.mp h
  exact ⟨bs, xs, hr, hl, by rw [hl]⟩

theorem readLengthDelimitedSize : Words readLengthDelimitedSize fun n bs => Varint bs n := by
  intro r n r' h
  obtain ⟨bs, xs, hr, hv, rfl⟩ := readLengthDelimitedSize_eq_ok.mp h
  exact ⟨bs, xs, hr, hv, rfl⟩

theorem readSize : Words readSize fun n bs => Varint bs n := by
  intro r n r' h
  unfold Protocyte.readSize at h
  split at h
  · next size r'' hr =>
    cases h
    exact readLengthDelimitedSize r size _ hr
  · cases h

theorem read (n : ℕ) : Words (Reader.read n) fun _ bs => bs.length = n := by
  intro r bytes r' h
  obtain ⟨hle, rfl, rfl⟩ := Reader.read_eq_ok.mp h
  have hlength : (r.rest.take n).length = n := by rw [List.length_take, Nat.min_eq_left hle]
  exact ⟨r.rest.take n, r.rest.drop n, (List.take_append_drop n _).symm, hlength, by rw [hlength]⟩

theorem readBuffer (n : ℕ) : Words (Reader.readBuffer n) fun _ bs => bs.length = n := by
  intro r bytes r' h
  unfold Reader.readBuffer at h
  split at h
  · next bs r'' hr =>
    cases h
    exact read n r bs _ hr
  · cases h

/-- A value, whatever the field. -/
theorem readScalar (t : ScalarType) (f : ℕ) :
    Words (readScalar t) fun _ bs => (Tag.mk f t.wireType).Whole bs := by
  intro r v r' h
  cases t with
  | double | fixed64 | sfixed64 =>
    obtain ⟨v, r'', hv, hr⟩ := bind_eq_ok.mp h
    cases hr
    obtain ⟨bs, xs, hr, hl, hadvance⟩ := readFixed _ _ _ _ hv
    exact ⟨bs, xs, hr, ⟨0, _, .fixed64 hl⟩, hadvance⟩
  | float | fixed32 | sfixed32 =>
    obtain ⟨v, r'', hv, hr⟩ := bind_eq_ok.mp h
    cases hr
    obtain ⟨bs, xs, hr, hl, hadvance⟩ := readFixed _ _ _ _ hv
    exact ⟨bs, xs, hr, ⟨0, _, .fixed32 hl⟩, hadvance⟩
  | int64 | uint64 | int32 | uint32 | openEnum | closedEnum values | sint32 | sint64 | bool =>
    obtain ⟨v, r'', hv, hr⟩ := bind_eq_ok.mp h
    cases hr
    obtain ⟨bs, xs, hr, hw, hadvance⟩ := readVarint _ _ _ hv
    exact ⟨bs, xs, hr, ⟨0, _, .varint hw⟩, hadvance⟩

theorem readScalarField (t : ScalarType) (w : WireType) (f : ℕ) :
    Words (readScalarField t w f) fun _ bs => (Tag.mk f t.wireType).Whole bs := by
  intro r v r' h
  obtain ⟨u, r₁, hexpect, hread⟩ := bind_eq_ok.mp h
  unfold expectWireType at hexpect
  split at hexpect
  · cases hexpect
  · cases hexpect
    exact readScalar t f r v r' (withField_eq_ok.mp hread)

end Words

theorem whole_len (f : ℕ) {ls payload : List UInt8} (h : Varint ls payload.length) :
    (Tag.mk f .len).Whole (ls ++ payload) :=
  ⟨0, .bytes f payload, .bytes h⟩

/-- A parse that reads a length. -/
def Sizes (size : β → ℕ) (y : ParseM O β) : Prop := ∀ s, Exits (y s)
  (fun b t => ∃ ls, Past s t ls ∧ Varint ls (size b)) (fun e _ => e.code ≠ .recursionLimit)

namespace Sizes

variable {size : β → ℕ} {y : ParseM O β}

theorem of_words {x : ReaderM β} (hx : Moves x) (hW : Words x fun b bs => Varint bs (size b)) :
    Sizes size (onReader x : ParseM O β) := by
  intro s
  refine Exits.intro ?_ ?_
  · intro b t h
    obtain ⟨r, hr, rfl⟩ := onReader_eq_ok.mp h
    obtain ⟨ls, xs, hls, hw, hadvance⟩ := hW _ _ _ hr
    exact ⟨ls, .advance hls hadvance, hw⟩
  · intro e t h
    obtain ⟨r, hr, rfl⟩ := onReader_eq_error.mp h
    exact ((hx s.reader).error hr).1

theorem readSize : Sizes Subtype.val (onReader readSize : ParseM O Usize) :=
  of_words readSize_moves .readSize

theorem readLengthDelimitedSize : Sizes id (onReader readLengthDelimitedSize : ParseM O ℕ) :=
  of_words Forward.readLengthDelimitedSize.moves .readLengthDelimitedSize

theorem withField (f : ℕ) (hy : Sizes size y) : Sizes size (withField f y) := by
  intro s
  have hs := hy s
  unfold Protocyte.withField
  cases h : y s with
  | ok b t => exact hs.ok h
  | error e t =>
    have he := hs.error h
    exact he

end Sizes

/-- What is said of the payload with a length. -/
def OfPayload (N : ℕ → List UInt8 → Prop) (d : ℕ) (rest : List UInt8) : Prop :=
  ∃ content, Payload .len rest content ∧ N d content

theorem Consumes.congr {W : List UInt8 → Prop} {N N' : ℕ → List UInt8 → Prop} {x : ParseM O α}
    (hx : Consumes W N x) (hN : ∀ d rest, N d rest ↔ N' d rest) : Consumes W N' x := by
  intro s
  have hs := hx s
  rw [hN] at hs
  exact hs

/-- A length, and as many bytes. -/
theorem Consumes.sized {size : β → ℕ} {y : ParseM O β} {N : ℕ → List UInt8 → Prop}
    {x : β → ParseM O α} (f : ℕ) (hy : Sizes size y)
    (hx : ∀ b, Consumes (·.length = size b) (fun d rest => N d (rest.take (size b))) (x b)) :
    Consumes (Tag.mk f .len).Whole (OfPayload N) (y >>= x) := by
  intro s
  refine Exits.bind (Exits.mono (hy s) (fun _ _ h => h) fun e _ h he => absurd he h) ?_
  intro b t ⟨ls, ht, hls⟩
  have hpayload : Payload .len s.reader.rest (t.reader.rest.take (size b)) := by
    rw [ht.rest]
    exact .len hls _
  have hxt := hx b t
  rw [ht.levels] at hxt
  refine Exits.mono hxt ?_ fun e _ h he => ⟨_, hpayload, h he⟩
  intro _ u ⟨bs, hu, hbs, hn⟩
  rw [← hbs] at hls
  refine ⟨ls ++ bs, ht.trans hu, whole_len f hls, ?_⟩
  intro ⟨content, hcontent, hcn⟩
  rw [hpayload.unique hcontent] at hcn
  exact hn hcn

theorem Consumes.sized_flat {size : β → ℕ} {y : ParseM O β} {x : β → ParseM O α} (f : ℕ)
    (hy : Sizes size y) (hx : ∀ b, Flat (·.length = size b) (x b)) :
    Flat (Tag.mk f .len).Whole (y >>= x) := by
  refine (sized (N := fun _ _ => False) f hy hx).congr fun d rest => ?_
  exact iff_of_false (fun ⟨_, _, h⟩ => h) id

/-- A buffer, and then steps that read nothing. -/
theorem Consumes.buffer {count : ℕ} {f : {bytes : List UInt8 // bytes.length = count} → ParseM O α}
    (hf : ∀ bytes, Still (f bytes)) :
    Flat (·.length = count) (onReader (Reader.readBuffer count) >>= f) := by
  refine Consumes.read_bind (readBuffer_moves count) (Words.readBuffer count) hf ?_
  intro _ bs cs hbs hcs
  subst hcs
  rw [List.append_nil]
  exact hbs

theorem readSized_flat (text : Bool) (size : Usize) :
    Flat (·.length = size.val) (readSized text size : ParseM O Bytes) := by
  refine Consumes.after .get fun s => .ite (fun _ => .failField 0 nofun) fun _ => ?_
  refine Consumes.after (.canRead _) fun _ => ?_
  refine Consumes.after (Consumes.located (Consumes.onContext (takeBlock_allocates _))) fun _ => ?_
  exact .buffer fun bytes => .ite (fun _ => .failField 0 nofun) fun _ => .pure _

theorem readLengthDelimited_flat (text : Bool) (f : ℕ) :
    Flat (Tag.mk f .len).Whole (readLengthDelimited text : ParseM O Bytes) :=
  .sized_flat f .readSize (readSized_flat text)

theorem readBoundedBytes_flat (max : Usize) (fixed : Bool) (f : ℕ) :
    Flat (Tag.mk f .len).Whole (readBoundedBytes max fixed f : ParseM O (ArrayBytes max fixed)) := by
  refine .sized_flat f .readSize fun size => ?_
  split
  · exact .failField f nofun
  split
  · exact .failField f nofun
  exact Consumes.after (.canRead _) fun _ => .buffer fun _ => .pure _

/-- A success has read to the end and has not met `N`; a failure for nesting has. -/
def Finishes (N : ℕ → List UInt8 → Prop) (x : ParseM O α) : Prop :=
  ∀ s, Exits (x s) (fun _ t => (∃ bs, Past s t bs) ∧ t.reader.eof = true ∧ ¬N s.levels s.reader.rest)
    (fun e _ => e.code = .recursionLimit → N s.levels s.reader.rest)

namespace Finishes

variable {N : ℕ → List UInt8 → Prop} {x : ParseM O α}

theorem inTemporary (init : T) {x : ParseM T α} (hx : Finishes N x) :
    Finishes N (inTemporary init x : ParseM O (α × T)) := by
  intro s
  have hs := hx { ctx := s.ctx, obj := init, reader := s.reader }
  unfold Protocyte.inTemporary
  cases h : x { ctx := s.ctx, obj := init, reader := s.reader } with
  | ok a t =>
    obtain ⟨⟨bs, ht⟩, heof, hn⟩ := hs.ok h
    exact ⟨⟨bs, ht.moved, ht.rest, ht.balanced⟩, heof, hn⟩
  | error e t =>
    have he := hs.error h
    exact he

theorem map (hx : Finishes N x) (f : α → β) : Finishes N (do return f (← x)) := by
  intro s
  refine Exits.bind (Exits.mono (hx s) (fun _ _ h => h) fun _ _ h => h) ?_
  exact fun _ _ h => h

/-- At its end there is nothing left to skip. -/
theorem finish (hx : Finishes N x) : Finishes N (do
    let a ← x
    onReader Reader.finish
    return a) := by
  intro s
  refine Exits.bind (Exits.mono (hx s) (fun _ _ h => h) fun _ _ h => h) ?_
  intro a t ⟨⟨bs, ht⟩, heof, hn⟩
  have hfinish : Reader.finish t.reader = .ok () t.reader := by
    cases hr : t.reader with
    | limited inner remaining =>
      rw [hr] at heof
      rw [Reader.finish, beq_iff_eq.mp heof, Reader.skip_eq, if_pos (Nat.zero_le _),
        Reader.advance_zero]
    | slice r | parseBudget inner a b c d e | ref inner | staged r b => rfl
  rw [bind_of_ok (onReader_eq_ok.mpr ⟨_, hfinish, rfl⟩)]
  exact ⟨⟨bs, ht⟩, heof, hn⟩

theorem through_ref (hx : Finishes N x) : Finishes N (through Reader.ref x) := by
  intro s
  have hs := hx { s with reader := .ref s.reader }
  unfold through
  cases h : x { s with reader := .ref s.reader } with
  | ok a t =>
    obtain ⟨⟨bs, ht⟩, heof, hn⟩ := hs.ok h
    have hmoved : s.reader.Moved t.reader.wrapped bs.length := ht.moved.wrapped_ref
    have hpast : Past s { t with reader := t.reader.wrapped } _ := .of_moved hmoved ht.balanced
    have huncounted := ht.moved.uncounted
    have hend : t.reader.wrapped.eof = true := by
      cases hr : t.reader with
      | ref inner =>
        rw [hr] at heof
        exact heof
      | slice r | parseBudget inner a b c d e | limited inner n | staged r b =>
        rw [hr] at huncounted
        cases huncounted
    exact ⟨⟨_, hpast⟩, hend, hn⟩
  | error e t =>
    have he := hs.error h
    exact he

/-- A payload of its length, read to its end. -/
theorem through_limited (n : ℕ) (hx : Finishes N x) :
    Consumes (·.length = n) (fun d rest => N d (rest.take n)) (through (Reader.limited · n) x) := by
  intro s
  have hs := hx { s with reader := .limited s.reader n }
  unfold through
  cases h : x { s with reader := .limited s.reader n } with
  | ok a t =>
    obtain ⟨⟨bs, ht⟩, heof, hn⟩ := hs.ok h
    have hmoved : s.reader.Moved t.reader.wrapped bs.length := ht.moved.wrapped_limited
    have hpast : Past s { t with reader := t.reader.wrapped } _ := .of_moved hmoved ht.balanced
    have hle : bs.length ≤ (s.reader.rest.take n).length := ht.moved.le
    rw [List.length_take] at hle
    have huncounted := ht.moved.uncounted
    have hlength : (s.reader.rest.take bs.length).length = n := by
      cases hr : t.reader with
      | limited inner remaining =>
        rw [hr] at heof huncounted
        have hremaining : remaining = n - bs.length := (Reader.limited.inj huncounted).2
        have hzero : remaining = 0 := beq_iff_eq.mp heof
        rw [List.length_take]
        omega
      | slice r | parseBudget inner a b c d e | ref inner | staged r b =>
        rw [hr] at huncounted
        cases huncounted
    exact ⟨_, hpast, hlength, hn⟩
  | error e t =>
    have he := hs.error h
    exact he

end Finishes

/-- A step into a level: a success has taken one and changed nothing else, and a refusal for
nesting has none left. -/
def Opening (x : ParseM O Unit) : Prop := ∀ s, Exits (x s)
  (fun _ t => s.ctx.recursionDepth < s.ctx.limits.maxRecursionDepth ∧ t = s.descended)
  (fun e _ => e.code = .recursionLimit → s.levels = 0)

namespace Opening

variable {x : ParseM O Unit}

theorem push (f : ℕ) : Opening (pushRecursion f : ParseM O Unit) := by
  intro s
  unfold pushRecursion
  by_cases hd : s.ctx.recursionDepth ≥ s.ctx.limits.maxRecursionDepth
  · rw [if_pos hd]
    exact fun _ => Nat.sub_eq_zero_of_le hd
  · rw [if_neg hd]
    exact ⟨Nat.lt_of_not_le hd, rfl⟩

theorem withField (f : ℕ) (hx : Opening x) : Opening (withField f x) := by
  intro s
  have hs := hx s
  unfold Protocyte.withField
  cases h : x s with
  | ok a t => exact hs.ok h
  | error e t =>
    have he := hs.error h
    exact he

theorem openNestedMessageSized (size f : ℕ) :
    Opening (openNestedMessageSized size f : ParseM O Unit) := by
  intro s
  refine Exits.ite (fun _ => ?_) fun _ => push f s
  intro he
  cases he

/-- A parse one level down. -/
theorem releasing {W : List UInt8 → Prop} {N : ℕ → List UInt8 → Prop} {y : ParseM O α}
    (hx : Opening x) (hy : Consumes W N y) :
    Consumes W (fun d rest => d = 0 ∨ N (d - 1) rest) (do x; releasing y) := by
  intro s
  refine Exits.bind ((hx s).mono (fun _ _ h => h) fun _ _ h he => .inl (h he)) ?_
  intro _ t ⟨hlt, ht⟩
  subst ht
  have hpos : 0 < s.levels := Nat.sub_pos_of_lt hlt
  have hlevels : s.descended.levels = s.levels - 1 := by
    have := Parse.levels_descended hpos
    omega
  have hs := hy s.descended
  rw [hlevels] at hs
  unfold Protocyte.releasing
  cases h : y s.descended with
  | ok a u =>
    obtain ⟨bs, hu, hbs, hn⟩ := hs.ok h
    refine ⟨bs, ⟨hu.moved, hu.rest, hu.balanced.pop⟩, hbs, ?_⟩
    intro hor
    rcases hor with hzero | hmet
    · omega
    · exact hn hmet
  | error e u =>
    have he := hs.error h
    exact fun hr => .inr (he hr)

end Opening

/-- The parse of a layer to its end. -/
abbrev Layered (S : Schema) (layer : Layer) (x : ParseM O α) : Prop :=
  Finishes (fun d => S.Nests (d + 1) layer) x

/-- What handles a field of a layer, after its tag. -/
abbrev Fielded (S : Schema) (layer : Layer) (tag : Tag) (x : ParseM O α) : Prop :=
  Consumes tag.Whole (fun d => S.Enters (S.Nests d) layer tag) x

section
variable {S : Schema} {layer inner : Layer} {f : ℕ}

theorem Consumes.fielded {tag : Tag} {x : ParseM O α} (hx : Flat tag.Whole x)
    (hopens : S.opens layer tag = none) : Fielded S layer tag x := by
  refine hx.congr fun d rest => iff_of_false id ?_
  intro ⟨inner, content, h, _⟩
  rw [hopens] at h
  cases h

/-- What is inside a level, when it is taken. -/
def Below (S : Schema) (inner : Layer) (d : ℕ) (content : List UInt8) : Prop :=
  d = 0 ∨ S.Nests (d - 1 + 1) inner content

theorem below_iff {inner : Layer} {d : ℕ} {content : List UInt8} :
    Below S inner d content ↔ S.Nests d inner content := by
  unfold Below
  cases d with
  | zero => exact iff_of_true (.inl rfl) trivial
  | succ d => simp only [Nat.add_one_ne_zero, false_or, Nat.add_sub_cancel]

/-- A nested message or entry. -/
theorem Consumes.fielded_nested (hopens : S.opens layer ⟨f, .len⟩ = some inner) {x : ParseM O α}
    (hx : Consumes (Tag.mk f .len).Whole (OfPayload (Below S inner)) x) :
    Fielded S layer ⟨f, .len⟩ x := by
  refine hx.congr fun d rest => ?_
  constructor
  · intro ⟨content, hp, hn⟩
    exact ⟨inner, content, hopens, hp, below_iff.mp hn⟩
  · intro ⟨inner', content, hopens', hp, hn⟩
    rw [hopens] at hopens'
    cases hopens'
    exact ⟨content, hp, below_iff.mpr hn⟩

theorem nestedMessage_fielded (hopens : S.opens layer ⟨f, .len⟩ = some inner) {x : ParseM O α}
    (hx : Layered S inner x) : Fielded S layer ⟨f, .len⟩ (do
      let size ← openNestedMessage f
      nestedMessage size x : ParseM O α) := by
  have h : Consumes (Tag.mk f .len).Whole (OfPayload (Below S inner)) (do
      let size ← withField f (onReader readLengthDelimitedSize)
      withField f (openNestedMessageSized size f)
      nestedMessage size x : ParseM O α) :=
    .sized f (Sizes.readLengthDelimitedSize.withField f) fun size =>
      ((Opening.openNestedMessageSized size f).withField f).releasing (hx.finish.through_limited size)
  unfold openNestedMessage
  simpa only [bind_assoc, pure_bind] using h.fielded_nested hopens

/-- What a message needs of the messages it holds. -/
structure MessageOps.Layered (S : Schema) (ops : MessageOps Sub) : Prop where
  create (id : ℕ) (e : Error) (h : ops.create id = .error e) : e.code ≠ .recursionLimit
  merge (id : ℕ) : Protocyte.Layered S (.message id) (ops.mergeFieldsFrom id)

variable {ops : MessageOps Sub} {id : ℕ}

theorem readMessagePartial_fielded (hops : ops.Layered S)
    (hopens : S.opens layer ⟨f, .len⟩ = some (.message id)) (out : Sub id) :
    Fielded S layer ⟨f, .len⟩ (readMessagePartial ops id f out : ParseM O (Sub id)) := by
  refine .withField f (nestedMessage_fielded hopens ?_)
  exact ((hops.merge id).inTemporary out).through_ref.map _

end

end Protocyte
