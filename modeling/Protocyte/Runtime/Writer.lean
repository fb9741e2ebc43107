import Protocyte.Runtime.Tags
import Protocyte.Runtime.State

/-! Writers. What a function writes does not depend on the writer: `Writes x bs` says that `x`
appends `bs` to any lawful writer that has the room. -/
namespace Protocyte
open Foundation.Computation Foundation.Base128 Foundation.LittleEndian
open Foundation.Wire (key)

class Writer (σ : Type) where
  canWrite : ℕ → σ → Bool
  writeByte : UInt8 → EStateM Error σ Unit
  write : List UInt8 → EStateM Error σ Unit

/-- A write that fails leaves the output alone, and none fails while there is room. `Follows`
is what else a writer keeps as it goes. -/
class LawfulWriter (σ : Type) [Writer σ] where
  output : σ → List UInt8
  Room : σ → ℕ → Prop
  Follows : σ → σ → Prop
  follows_refl (s : σ) : Follows s s
  follows_trans {s t u : σ} : Follows s t → Follows t u → Follows s u
  room_mono {s : σ} {m n : ℕ} : m ≤ n → Room s n → Room s m
  writeByte_exits (b : UInt8) (s : σ) : Exits (Writer.writeByte b s)
    (fun _ s' => output s' = output s ++ [b] ∧ Follows s s' ∧ ∀ n, Room s (1 + n) → Room s' n)
    (fun e s' => output s' = output s ∧ Follows s s' ∧ ¬ Room s 1 ∧
      e.code ∈ [.noMemory, .sizeLimit, .countLimit, .integerOverflow])
  write_exits (bs : List UInt8) (s : σ) : Exits (Writer.write bs s)
    (fun _ s' => output s' = output s ++ bs ∧ Follows s s' ∧
      ∀ n, Room s (bs.length + n) → Room s' n)
    (fun e s' => output s' = output s ∧ Follows s s' ∧ ¬ Room s bs.length ∧
      e.code ∈ [.noMemory, .sizeLimit, .countLimit, .integerOverflow])

export LawfulWriter (output Room Follows)

/-- `while (value >= 0x80u)`: a 64-bit value has at most nine groups before the last. -/
def writeVarintLoop {σ : Type} [Writer σ] : ℕ → ℕ → EStateM Error σ Unit
  | 0, value => Writer.writeByte (UInt8.ofNat value)
  | n + 1, value =>
    if value ≥ 0x80 then do
      Writer.writeByte (UInt8.ofNat (value ||| 0x80))
      writeVarintLoop n (value >>> 7)
    else Writer.writeByte (UInt8.ofNat value)

def varintSizeLoop : ℕ → ℕ → ℕ → ℕ
  | 0, _, size => size
  | n + 1, value, size => if value ≥ 0x80 then varintSizeLoop n (value >>> 7) (size + 1) else size

def varintSize (value : ℕ) : ℕ := varintSizeLoop 9 value 1

def tagSize (fieldNumber : ℕ) (wireType : WireType) : ℕ :=
  let size := varintSize (Tag.raw ⟨fieldNumber, wireType⟩)
  if wireType = .sgroup then size * 2 else size

section
variable {σ : Type} [Writer σ]

def writeVarint (value : ℕ) : EStateM Error σ Unit := writeVarintLoop 9 value

/-- `write_fixed32` and `write_fixed64` are `writeFixed 4` and `writeFixed 8`. -/
def writeFixed (width value : ℕ) : EStateM Error σ Unit := Writer.write (toBytes width value)

def writeTag (fieldNumber : ℕ) (wireType : WireType) : EStateM Error σ Unit :=
  withField fieldNumber (writeVarint (Tag.raw ⟨fieldNumber, wireType⟩))

variable [LawfulWriter σ]

/-- The writer `s'` is `s` after `bs`. -/
def Wrote (s s' : σ) (bs : List UInt8) : Prop :=
  output s' = output s ++ bs ∧ Follows s s' ∧ ∀ n, Room s (bs.length + n) → Room s' n

/-- The writer `s'` is `s` after a write that stopped for want of room for `n` bytes. -/
def Stopped (s s' : σ) (n : ℕ) (e : Error) : Prop :=
  (∃ bs, output s' = output s ++ bs) ∧ Follows s s' ∧ ¬ Room s n ∧
    e.code ∈ [.noMemory, .sizeLimit, .countLimit, .integerOverflow]

def Writes (x : EStateM Error σ Unit) (bs : List UInt8) : Prop :=
  ∀ s, Exits (x s) (fun _ s' => Wrote s s' bs) (fun e s' => Stopped s s' bs.length e)

theorem Wrote.refl (s : σ) : Wrote s s [] :=
  ⟨by simp, LawfulWriter.follows_refl s, fun n h => by simpa using h⟩

theorem Wrote.trans {s t u : σ} {bs cs : List UInt8} (h : Wrote s t bs) (h' : Wrote t u cs) :
    Wrote s u (bs ++ cs) := by
  refine ⟨by rw [h'.1, h.1, List.append_assoc], LawfulWriter.follows_trans h.2.1 h'.2.1,
    fun n hn => h'.2.2 n (h.2.2 _ ?_)⟩
  rwa [List.length_append, Nat.add_assoc] at hn

theorem Wrote.stopped {s t u : σ} {bs : List UInt8} {n : ℕ} {e : Error} (h : Wrote s t bs)
    (h' : Stopped t u n e) : Stopped s u (bs.length + n) e := by
  obtain ⟨⟨cs, hcs⟩, hf, hr, he⟩ := h'
  exact ⟨⟨bs ++ cs, by rw [hcs, h.1, List.append_assoc]⟩, LawfulWriter.follows_trans h.2.1 hf,
    fun hs => hr (h.2.2 n hs), he⟩

theorem Stopped.mono {s u : σ} {m n : ℕ} {e : Error} (h : Stopped s u m e) (hmn : m ≤ n) :
    Stopped s u n e :=
  ⟨h.1, h.2.1, fun hn => h.2.2.1 (LawfulWriter.room_mono hmn hn), h.2.2.2⟩

namespace Writes

theorem byte (b : UInt8) : Writes (Writer.writeByte b : EStateM Error σ Unit) [b] := fun s =>
  (LawfulWriter.writeByte_exits b s).mono (fun _ _ h => h)
    fun _ _ ⟨ho, hf, hr, he⟩ => ⟨⟨[], by simp [ho]⟩, hf, hr, he⟩

theorem bytes (bs : List UInt8) : Writes (Writer.write bs : EStateM Error σ Unit) bs := fun s =>
  (LawfulWriter.write_exits bs s).mono (fun _ _ h => h)
    fun _ _ ⟨ho, hf, hr, he⟩ => ⟨⟨[], by simp [ho]⟩, hf, hr, he⟩

theorem nil : Writes (pure () : EStateM Error σ Unit) [] := fun s => Wrote.refl s

theorem bind {x y : EStateM Error σ Unit} {bs cs : List UInt8} (hx : Writes x bs)
    (hy : Writes y cs) : Writes (do x; y) (bs ++ cs) := by
  intro s
  rw [bind_apply]
  cases h : x s with
  | ok a t =>
    have ht := (hx s).ok h
    refine (hy t).mono (fun _ _ hu => ht.trans hu) fun e u hu => ?_
    rw [List.length_append]
    exact ht.stopped hu
  | error e t =>
    refine Stopped.mono ((hx s).error h) ?_
    rw [List.length_append]
    exact Nat.le_add_right _ _

theorem withField {x : EStateM Error σ Unit} {bs : List UInt8} (n : ℕ) (h : Writes x bs) :
    Writes (withField n x) bs := by
  intro s
  refine Exits.intro (fun a s' hr => (h s).ok (withField_eq_ok.mp hr)) fun e s' hr => ?_
  obtain ⟨e', he, rfl⟩ := withField_eq_error.mp hr
  have hs : Stopped s s' bs.length e' := (h s).error he
  exact hs

theorem room {x : EStateM Error σ Unit} {bs : List UInt8} (h : Writes x bs) {s : σ}
    (hr : Room s bs.length) : ∃ s', x s = .ok () s' ∧ Wrote s s' bs := by
  cases hx : x s with
  | ok a s' => exact ⟨s', rfl, (h s).ok hx⟩
  | error e s' => exact absurd hr ((h s).error hx).2.2.1

end Writes

private theorem or_80 : ∀ b < 256, (b ||| 0x80) = b % 128 + 128 := by decide +kernel

private theorem ofNat_or_80 (v : ℕ) :
    UInt8.ofNat (v ||| 0x80) = UInt8.ofNat (v % 128 + 128) := by
  have hm : (v ||| 0x80) % 2 ^ 8 = v % 128 + 128 := by
    rw [Nat.or_mod_two_pow, or_80 (v % 2 ^ 8) (Nat.mod_lt _ (by decide))]
    omega
  apply UInt8.toNat_inj.mp
  rw [UInt8.toNat_ofNat', hm, UInt8.toNat_ofNat']
  omega

private theorem writes_varintLoop (n : ℕ) {v : ℕ} (h : v < 2 ^ (7 * n + 7)) :
    Writes (writeVarintLoop n v : EStateM Error σ Unit) (encode v) := by
  induction n generalizing v with
  | zero =>
    rw [encode_of_lt h]
    exact .byte _
  | succ n ih =>
    rw [writeVarintLoop]
    by_cases hv : v ≥ 0x80
    · have hs : v >>> 7 = v / 128 := Nat.shiftRight_eq_div_pow v 7
      rw [if_pos hv, encode_of_ge hv, ofNat_or_80, hs]
      refine (Writes.byte _).bind (ih ?_)
      have he : 7 * (n + 1) + 7 = 7 + (7 * n + 7) := by omega
      rw [he, Nat.pow_add] at h
      omega
    · rw [if_neg hv, encode_of_lt (by omega)]
      exact .byte _

theorem writes_varint {v : ℕ} (h : v < 2 ^ 64) :
    Writes (writeVarint v : EStateM Error σ Unit) (encode v) :=
  writes_varintLoop 9 (Nat.lt_of_lt_of_le h (Nat.pow_le_pow_right (by decide) (by decide)))

/-- Whatever the value, only the writer's own steps are taken. -/
theorem writeVarint_follows (v : ℕ) (s : σ) : Exits (writeVarint v s) (fun _ s' => Follows s s')
    (fun e s' => Follows s s' ∧
      e.code ∈ [.noMemory, .sizeLimit, .countLimit, .integerOverflow]) := by
  have last : ∀ (v : ℕ) (s : σ), Exits (Writer.writeByte (UInt8.ofNat v) s)
      (fun _ s' => Follows s s') (fun e s' => Follows s s' ∧
        e.code ∈ [.noMemory, .sizeLimit, .countLimit, .integerOverflow]) := fun v s =>
    (LawfulWriter.writeByte_exits _ s).mono (fun _ _ h => h.2.1) fun _ _ h => ⟨h.2.1, h.2.2.2⟩
  have loop : ∀ (n v : ℕ) (s : σ), Exits (writeVarintLoop n v s)
      (fun _ s' => Follows s s') (fun e s' => Follows s s' ∧
        e.code ∈ [.noMemory, .sizeLimit, .countLimit, .integerOverflow]) := by
    intro n
    induction n with
    | zero => exact last
    | succ n ih =>
      intro v s
      rw [writeVarintLoop]
      refine Exits.ite (fun _ => ?_) fun _ => last v s
      refine Exits.bind (last _ s) fun _ t ht => ?_
      exact (ih _ t).mono (fun _ _ h => LawfulWriter.follows_trans ht h)
        fun _ _ h => ⟨LawfulWriter.follows_trans ht h.1, h.2⟩
  exact loop 9 v s

theorem writes_fixed (width v : ℕ) :
    Writes (writeFixed width v : EStateM Error σ Unit) (toBytes width v) := .bytes _

theorem writes_tag {n : ℕ} (w : WireType) (h : n ≤ Foundation.Wire.maxNumber) :
    Writes (writeTag n w : EStateM Error σ Unit) (key n w.code) := by
  have hw := w.code_lt
  have hraw : Tag.raw ⟨n, w⟩ = 8 * n + w.code := Tag.raw_eq _
  rw [key, ← hraw]
  refine (writes_varint ?_).withField n
  rw [hraw]
  unfold Foundation.Wire.maxNumber at h
  omega

end

private theorem varintSizeLoop_eq (n : ℕ) {v : ℕ} (h : v < 2 ^ (7 * n + 7)) (size : ℕ) :
    varintSizeLoop n v size + 1 = size + (encode v).length := by
  induction n generalizing v size with
  | zero => simp [varintSizeLoop, encode_of_lt h]
  | succ n ih =>
    rw [varintSizeLoop]
    by_cases hv : v ≥ 0x80
    · have hs : v >>> 7 = v / 128 := Nat.shiftRight_eq_div_pow v 7
      have he : 7 * (n + 1) + 7 = 7 + (7 * n + 7) := by omega
      rw [he, Nat.pow_add] at h
      rw [if_pos hv, encode_of_ge hv, hs, ih (by omega), List.length_cons]
      omega
    · rw [if_neg hv, encode_of_lt (by omega)]
      rfl

/-- The size function counts the bytes the writer emits. -/
theorem varintSize_eq {v : ℕ} (h : v < 2 ^ 64) : varintSize v = (encode v).length := by
  have hs := varintSizeLoop_eq 9
    (Nat.lt_of_lt_of_le h (Nat.pow_le_pow_right (by decide) (by decide))) 1
  unfold varintSize
  omega

/-- A writer that never runs out of room: the bytes so far. -/
instance : Writer (List UInt8) where
  canWrite _ _ := true
  writeByte b := modify (· ++ [b])
  write bs := modify (· ++ bs)

instance : LawfulWriter (List UInt8) where
  output s := s
  Room _ _ := True
  Follows _ _ := True
  follows_refl _ := trivial
  follows_trans _ _ := trivial
  room_mono _ _ := trivial
  writeByte_exits _ _ := ⟨rfl, trivial, fun _ _ => trivial⟩
  write_exits _ _ := ⟨rfl, trivial, fun _ _ => trivial⟩

/-- What a computation writes is what the unbounded writer collects. -/
theorem Writes.unbounded {x : EStateM Error (List UInt8) Unit} {bs : List UInt8} (h : Writes x bs)
    (s : List UInt8) : x s = .ok () (s ++ bs) := by
  obtain ⟨s', hx, ho, -⟩ := h.room (s := s) trivial
  rw [hx]
  exact congrArg (EStateM.Result.ok ()) ho

structure SliceWriter where
  data : List UInt8
  baseOffset : ℕ := 0
  pos : ℕ := 0
  pos_le : pos ≤ data.length := by simp

namespace SliceWriter

def position (w : SliceWriter) : ℕ := w.baseOffset + w.pos

def sizeLimit (w : SliceWriter) : Error := { code := .sizeLimit, offset := w.position }

def writeByte (value : UInt8) : EStateM Error SliceWriter Unit := fun w =>
  if h : w.pos ≥ w.data.length then .error w.sizeLimit w
  else .ok () { w with
    data := w.data.set w.pos value, pos := w.pos + 1, pos_le := by rw [List.length_set]; omega }

def write (bytes : List UInt8) : EStateM Error SliceWriter Unit := fun w =>
  if h : bytes.length > w.data.length - w.pos then .error w.sizeLimit w
  else if bytes.length = 0 then .ok () w
  else .ok () { w with
    data := w.data.take w.pos ++ (bytes ++ w.data.drop (w.pos + bytes.length))
    pos := w.pos + bytes.length
    pos_le := by have := w.pos_le; simp; omega }

instance : Writer SliceWriter where
  canWrite count w := count ≤ w.data.length - w.pos
  writeByte := writeByte
  write := write

/-- The span keeps its size, and its bytes from the position on. -/
structure Keeps (w w' : SliceWriter) : Prop where
  base : w'.baseOffset = w.baseOffset
  length : w'.data.length = w.data.length
  pos : w.pos ≤ w'.pos
  drop : w'.data.drop w'.pos = w.data.drop w'.pos

theorem Keeps.trans {u v w : SliceWriter} (h : Keeps u v) (h' : Keeps v w) : Keeps u w := by
  refine ⟨h'.base.trans h.base, h'.length.trans h.length, Nat.le_trans h.pos h'.pos, ?_⟩
  obtain ⟨k, hk⟩ := Nat.exists_eq_add_of_le h'.pos
  rw [h'.drop, hk, ← List.drop_drop, h.drop, List.drop_drop]

private theorem set_eq (data : List UInt8) {pos : ℕ} (h : pos < data.length) (b : UInt8) :
    data.set pos b = data.take pos ++ ([b] ++ data.drop (pos + 1)) :=
  List.set_eq_take_append_cons_drop.trans (by simp [h])

private theorem wrote (w w' : SliceWriter) (bs : List UInt8) (hb : w'.baseOffset = w.baseOffset)
    (hp : w'.pos = w.pos + bs.length)
    (hd : w'.data = w.data.take w.pos ++ (bs ++ w.data.drop (w.pos + bs.length)))
    (hr : bs.length ≤ w.data.length - w.pos) :
    w'.data.take w'.pos = w.data.take w.pos ++ bs ∧ Keeps w w' ∧
      ∀ n, bs.length + n ≤ w.data.length - w.pos → n ≤ w'.data.length - w'.pos := by
  have hpos := w.pos_le
  have ht : (w.data.take w.pos ++ bs).length = w'.pos := by simp [hp, Nat.min_eq_left hpos]
  rw [← List.append_assoc] at hd
  have hlen : w'.data.length = w.data.length := by rw [hd]; simp; omega
  refine ⟨?_, ⟨hb, hlen, by omega, ?_⟩, fun n hn => by omega⟩
  · rw [hd, List.take_left' ht]
  · rw [hd, List.drop_left' ht, hp]

instance : LawfulWriter SliceWriter where
  output w := w.data.take w.pos
  Room w n := n ≤ w.data.length - w.pos
  Follows := Keeps
  follows_refl _ := ⟨rfl, rfl, Nat.le_refl _, rfl⟩
  follows_trans := Keeps.trans
  room_mono := Nat.le_trans
  writeByte_exits b w := by
    change Exits (writeByte b w) _ _
    unfold writeByte
    by_cases h : w.pos ≥ w.data.length
    · rw [dif_pos h]
      exact ⟨rfl, ⟨rfl, rfl, Nat.le_refl _, rfl⟩, by omega, by simp [sizeLimit]⟩
    · rw [dif_neg h]
      exact wrote w _ [b] rfl rfl (set_eq _ (Nat.lt_of_not_le h) b) (by simp; omega)
  write_exits bs w := by
    change Exits (write bs w) _ _
    unfold write
    by_cases h : bs.length > w.data.length - w.pos
    · rw [dif_pos h]
      exact ⟨rfl, ⟨rfl, rfl, Nat.le_refl _, rfl⟩, by omega, by simp [sizeLimit]⟩
    · rw [dif_neg h]
      by_cases h0 : bs.length = 0
      · rw [if_pos h0, List.length_eq_zero_iff.mp h0]
        exact ⟨by simp, ⟨rfl, rfl, Nat.le_refl _, rfl⟩, by simp⟩
      · rw [if_neg h0]
        exact wrote w _ bs rfl rfl rfl (by omega)

/-- The state of a slice writer is determined by what it wrote. -/
theorem wrote_unique {w u v : SliceWriter} {bs : List UInt8} (hu : Wrote w u bs)
    (hv : Wrote w v bs) : u = v := by
  have hpos : ∀ x : SliceWriter, Wrote w x bs → x.pos = w.pos + bs.length := by
    intro x hx
    have hwpos := w.pos_le
    have hxpos := x.pos_le
    have htake : x.data.take x.pos = w.data.take w.pos ++ bs := hx.1
    have hlength := congrArg List.length htake
    rw [List.length_take, List.length_append, List.length_take, Nat.min_eq_left hxpos,
      Nat.min_eq_left hwpos] at hlength
    exact hlength
  have hdata : ∀ x : SliceWriter, Wrote w x bs →
      x.data = w.data.take w.pos ++ bs ++ w.data.drop (w.pos + bs.length) := by
    intro x hx
    have htake : x.data.take x.pos = w.data.take w.pos ++ bs := hx.1
    have hdrop : x.data.drop x.pos = w.data.drop x.pos := hx.2.1.drop
    rw [← List.take_append_drop x.pos x.data, htake, hdrop, hpos x hx]
  have hbase : u.baseOffset = v.baseOffset := hu.2.1.base.trans hv.2.1.base.symm
  have hdata' := (hdata u hu).trans (hdata v hv).symm
  have hpos' := (hpos u hu).trans (hpos v hv).symm
  cases u
  cases v
  cases hbase
  cases hdata'
  cases hpos'
  rfl

end SliceWriter

end Protocyte
