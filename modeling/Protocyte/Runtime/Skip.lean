import Protocyte.Runtime.State
import Protocyte.Runtime.Tags

/-! Skipping a field. The walker accepts exactly the bodies of the record grammar whose groups
fit in the recursion levels the context has left, and restores the recursion counter. -/
namespace Protocyte
open Foundation.Computation Foundation.Wire

variable {O : Type}

/-- `pop_recursion(ctx); return with_field(st, field_number)` on every failing exit of `x`. -/
def unwinding {α : Type} (fieldNumber : ℕ) (x : ParseM O α) : ParseM O α := fun s =>
  match x s with
  | .ok a s' => .ok a s'
  | .error e s' => .error (e.withField fieldNumber) { s' with ctx := s'.ctx.popRecursion }

@[simp] theorem unwinding_eq_ok {α : Type} {n : ℕ} {x : ParseM O α} {s s' : Parse O} {a : α} :
    unwinding n x s = .ok a s' ↔ x s = .ok a s' := by
  unfold unwinding
  cases x s <;> simp

/-- The exit of a loop whose bound ran out. -/
def diverged {σ α : Type} : EStateM Error σ α := throw { code := .diverged }

/-- `skip_field`, given what skips a group. -/
def skipFieldWith (skipGroup : ℕ → ParseM O Unit) (wireType : WireType) (fieldNumber : ℕ) :
    ParseM O Unit :=
  match wireType with
  | .varint => withField fieldNumber (onReader do let _ ← readVarint)
  | .i64 => withField fieldNumber (onReader (Reader.skip 8))
  | .len => withField fieldNumber (onReader do
      let size ← readLengthDelimitedSize
      Reader.skip size)
  | .sgroup => withField fieldNumber (skipGroup fieldNumber)
  | .egroup => failField .invalidWireType fieldNumber
  | .i32 => withField fieldNumber (onReader (Reader.skip 4))
  | .reserved6 | .reserved7 => failField .invalidWireType fieldNumber

/-- The loop of `skip_group`. Every iteration reads a tag, so the bytes left bound their number. -/
def skipGroupLoop : ℕ → ℕ → ParseM O Unit
  | 0, _ => diverged
  | n + 1, startFieldNumber => do
    let tag ← unwinding startFieldNumber (onReader readTag)
    if tag.wireType = .egroup then
      popRecursion
      if tag.fieldNumber ≠ startFieldNumber then
        failField .invalidWireType startFieldNumber
    else
      unwinding startFieldNumber <|
        skipFieldWith
          (fun fieldNumber => do
            withField fieldNumber (pushRecursion fieldNumber)
            skipGroupLoop n fieldNumber)
          tag.wireType tag.fieldNumber
      skipGroupLoop n startFieldNumber

def skipGroupWithin (bound startFieldNumber : ℕ) : ParseM O Unit := do
  withField startFieldNumber (pushRecursion startFieldNumber)
  skipGroupLoop bound startFieldNumber

def skipField (wireType : WireType) (fieldNumber : ℕ) : ParseM O Unit := fun s =>
  skipFieldWith (skipGroupWithin (s.reader.rest.length + 1)) wireType fieldNumber s

namespace Parse

/-- The parse after `k` bytes, when nesting has been down to level `n`. -/
def moved (k n : ℕ) (s : Parse O) : Parse O :=
  { s with reader := s.reader.advance k, ctx := s.ctx.visited n }

/-- The recursion levels left. -/
def levels (s : Parse O) : ℕ := s.ctx.limits.maxRecursionDepth - s.ctx.recursionDepth

@[simp] theorem moved_reader (k n : ℕ) (s : Parse O) :
    (s.moved k n).reader = s.reader.advance k := rfl

@[simp] theorem levels_moved (k n : ℕ) (s : Parse O) : (s.moved k n).levels = s.levels := rfl

theorem moved_moved (j k m n : ℕ) (s : Parse O) :
    (s.moved j m).moved k n = s.moved (j + k) (max m n) := by
  simp [moved, Reader.advance_advance, Context.visited_visited]

/-- The parse inside a group. -/
def descended (s : Parse O) : Parse O := { s with ctx := s.ctx.descended }

@[simp] theorem descended_reader (s : Parse O) : s.descended.reader = s.reader := rfl

theorem levels_descended {s : Parse O} (h : 0 < s.levels) :
    s.levels = s.descended.levels + 1 := by
  unfold levels at h ⊢
  simp only [descended, Context.descended_limits, Context.descended_recursionDepth]
  omega

/-- Leaving the group a walk went into. -/
theorem popRecursion_moved_descended (k n : ℕ) (s : Parse O) :
    { s.descended.moved k n with ctx := (s.descended.moved k n).ctx.popRecursion } =
      s.moved k (max (s.ctx.recursionDepth + 1) n) := by
  simp only [moved, descended, Context.popRecursion_visited_descended]

theorem moved_zero (k : ℕ) (s : Parse O) :
    s.moved k 0 = { s with reader := s.reader.advance k } := by
  simp [moved]

end Parse

/-- `x` only accepts words of `W` and moves past them. -/
def Accepts (x : ParseM O Unit) (W : List UInt8 → Prop) (s : Parse O) : Prop :=
  ∀ s', x s = .ok () s' → ∃ bs xs n, s.reader.rest = bs ++ xs ∧ W bs ∧
    n ≤ s.ctx.limits.maxRecursionDepth ∧ s' = s.moved bs.length n

private theorem skipFieldWith_accepts {g : ℕ → ParseM O Unit} {s : Parse O}
    (hg : ∀ f, Accepts (g f)
      (fun bs => 0 < s.levels ∧ ∃ ts, Members (Body (s.levels - 1)) f bs ts) s)
    (w : WireType) (f : ℕ) :
    Accepts (skipFieldWith g w f) (fun bs => ∃ t, Body s.levels f w.code bs t) s := by
  intro s' h
  have fixed : ∀ k, withField f (onReader (Reader.skip k)) s = .ok () s' →
      ∃ bs xs, s.reader.rest = bs ++ xs ∧ bs.length = k ∧ s' = s.moved bs.length 0 := by
    intro k h
    obtain ⟨r, hr, rfl⟩ := onReader_eq_ok.mp (withField_eq_ok.mp h)
    obtain ⟨bs, xs, hbs, hl, rfl⟩ := Reader.skip_splits.mp hr
    exact ⟨bs, xs, hbs, hl, (s.moved_zero _).symm⟩
  cases w with
  | varint =>
    obtain ⟨r, hr, rfl⟩ := onReader_eq_ok.mp (withField_eq_ok.mp h)
    obtain ⟨v, r', hv, hp⟩ := bind_eq_ok.mp hr
    obtain ⟨bs, xs, hbs, hw, rfl⟩ := readVarint_eq_ok.mp hv
    cases hp
    exact ⟨bs, xs, 0, hbs, ⟨_, (Leaf.varint hw).body _⟩, Nat.zero_le _, (s.moved_zero _).symm⟩
  | i64 =>
    obtain ⟨bs, xs, hbs, hl, hs⟩ := fixed 8 h
    exact ⟨bs, xs, 0, hbs, ⟨_, (Leaf.fixed64 hl).body _⟩, Nat.zero_le _, hs⟩
  | len =>
    obtain ⟨r, hr, rfl⟩ := onReader_eq_ok.mp (withField_eq_ok.mp h)
    obtain ⟨v, r', hv, hp⟩ := bind_eq_ok.mp hr
    obtain ⟨ls, xs, hls, hw, rfl⟩ := readLengthDelimitedSize_eq_ok.mp hv
    obtain ⟨bs, ys, hbs, rfl, rfl⟩ := Reader.skip_splits.mp hp
    rw [Reader.rest_advance, hls, List.drop_left] at hbs
    subst hbs
    refine ⟨ls ++ bs, ys, 0, by rw [hls, List.append_assoc], ?_, Nat.zero_le _, ?_⟩
    · exact ⟨_, (Leaf.bytes hw).body _⟩
    · rw [Parse.moved_zero, Reader.advance_advance, List.length_append]
  | sgroup =>
    obtain ⟨bs, xs, n, hbs, ⟨hpos, ts, hm⟩, hn, hs⟩ := hg f s' (withField_eq_ok.mp h)
    obtain ⟨d, hd⟩ : ∃ d, s.levels = d + 1 := ⟨s.levels - 1, by omega⟩
    rw [hd, Nat.add_sub_cancel] at hm
    exact ⟨bs, xs, n, hbs, ⟨.group f ts, hd ▸ Or.inr ⟨rfl, ts, rfl, hm⟩⟩, hn, hs⟩
  | egroup => cases h
  | i32 =>
    obtain ⟨bs, xs, hbs, hl, hs⟩ := fixed 4 h
    exact ⟨bs, xs, 0, hbs, ⟨_, (Leaf.fixed32 hl).body _⟩, Nat.zero_le _, hs⟩
  | reserved6 => cases h
  | reserved7 => cases h

private theorem moved_zero_zero (s : Parse O) : s.moved 0 0 = s := by
  simp [Parse.moved]

theorem skipGroupLoop_succ (n f : ℕ) : (skipGroupLoop (n + 1) f : ParseM O Unit) = (do
    let tag ← unwinding f (onReader readTag)
    if tag.wireType = .egroup then
      popRecursion
      if tag.fieldNumber ≠ f then
        failField .invalidWireType f
    else
      unwinding f (skipFieldWith (skipGroupWithin n) tag.wireType tag.fieldNumber)
      skipGroupLoop n f) := rfl

/-- The loop runs inside the group, `k` bytes in, and leaves it at the end tag. -/
private def LoopAccepts (O : Type) (n : ℕ) : Prop :=
  ∀ (f k m : ℕ) (s s' : Parse O), s.ctx.recursionDepth < s.ctx.limits.maxRecursionDepth →
    m ≤ s.ctx.limits.maxRecursionDepth →
    skipGroupLoop n f (s.descended.moved k m) = .ok () s' →
    ∃ bs xs ts m', s.reader.rest.drop k = bs ++ xs ∧ Members (Body (s.levels - 1)) f bs ts ∧
      m' ≤ s.ctx.limits.maxRecursionDepth ∧ s' = s.moved (k + bs.length) m'

private theorem skipGroupWithin_of_loop {n : ℕ} (hn : LoopAccepts O n) (f : ℕ) (s : Parse O) :
    Accepts (skipGroupWithin n f)
      (fun bs => 0 < s.levels ∧ ∃ ts, Members (Body (s.levels - 1)) f bs ts) s := by
  intro s' h
  obtain ⟨⟨⟩, t, hpush, h⟩ := bind_eq_ok.mp h
  obtain ⟨hlt, rfl⟩ := pushRecursion_eq_ok.mp (withField_eq_ok.mp hpush)
  obtain ⟨bs, ys, ts, m', hbs, hts, hm', rfl⟩ := hn f 0 0 s s' hlt (Nat.zero_le _)
    (by rw [moved_zero_zero]; exact h)
  rw [List.drop_zero] at hbs
  exact ⟨bs, ys, m', hbs, ⟨Nat.sub_pos_of_lt hlt, ts, hts⟩, hm', by rw [Nat.zero_add]⟩

private theorem loopAccepts_succ {n : ℕ} (ih : LoopAccepts O n) : LoopAccepts O (n + 1) := by
  intro f k m s s' hlt hm h
  have hlevels : s.descended.levels = s.levels - 1 := by
    have := Parse.levels_descended (Nat.sub_pos_of_lt hlt)
    omega
  rw [skipGroupLoop_succ] at h
  obtain ⟨tag, t, ht, h⟩ := bind_eq_ok.mp h
  obtain ⟨r, hr, rfl⟩ := onReader_eq_ok.mp (unwinding_eq_ok.mp ht)
  obtain ⟨ks, xs, hks, hkey, rfl⟩ := readTag_eq_ok.mp hr
  rw [Parse.moved_reader, Parse.descended_reader, Reader.rest_advance] at hks
  rw [← Parse.moved_zero, Parse.moved_moved, Nat.max_zero] at h
  by_cases he : tag.wireType = .egroup
  · rw [if_pos he, bind_of_ok (popRecursion_apply _)] at h
    by_cases hf : tag.fieldNumber ≠ f
    · rw [if_pos hf] at h; cases h
    rw [if_neg hf, pure_apply, EStateM.Result.ok.injEq] at h
    rw [← h.2, Parse.popRecursion_moved_descended]
    rw [he, Decidable.not_not.mp hf] at hkey
    exact ⟨ks, xs, [], _, hks, .close hkey, Nat.max_le.mpr ⟨hlt, hm⟩, rfl⟩
  · rw [if_neg he] at h
    obtain ⟨⟨⟩, t, ht, h⟩ := bind_eq_ok.mp h
    obtain ⟨bs, ys, m₁, hbs, ⟨u, hu⟩, hm₁, rfl⟩ :=
      skipFieldWith_accepts (fun g => skipGroupWithin_of_loop ih g _) _ _ t (unwinding_eq_ok.mp ht)
    rw [Parse.moved_moved] at h
    obtain ⟨cs, zs, ts, m', hcs, hts, hm', rfl⟩ :=
      ih f (k + ks.length + bs.length) (max m m₁) s s' hlt (Nat.max_le.mpr ⟨hm, hm₁⟩) h
    refine ⟨ks ++ (bs ++ cs), zs, u :: ts, m', ?_, .member hkey ?_ hts, hm', ?_⟩
    · rw [Parse.moved_reader, Parse.descended_reader, Reader.rest_advance, ← List.drop_drop,
        hks, List.drop_left] at hbs
      rw [← List.drop_drop, ← List.drop_drop, hks, List.drop_left, hbs, List.drop_left] at hcs
      rw [hks, hbs, hcs, List.append_assoc, List.append_assoc]
    · rwa [Parse.levels_moved, hlevels] at hu
    · simp only [List.length_append, Nat.add_assoc]

private theorem loopAccepts (n : ℕ) : LoopAccepts O n := by
  induction n with
  | zero => intro f k m s s' _ _ h; cases h
  | succ n ih => exact loopAccepts_succ ih

theorem skipGroupWithin_accepts (n f : ℕ) (s : Parse O) : Accepts (skipGroupWithin n f)
    (fun bs => 0 < s.levels ∧ ∃ ts, Members (Body (s.levels - 1)) f bs ts) s :=
  skipGroupWithin_of_loop (loopAccepts n) f s

theorem skipFieldWithin_accepts (n : ℕ) (w : WireType) (f : ℕ) (s : Parse O) :
    Accepts (skipFieldWith (skipGroupWithin n) w f) (fun bs => ∃ t, Body s.levels f w.code bs t) s :=
  skipFieldWith_accepts (fun f => skipGroupWithin_accepts n f s) w f

theorem skipField_accepts (w : WireType) (f : ℕ) (s : Parse O) :
    Accepts (skipField w f) (fun bs => ∃ t, Body s.levels f w.code bs t) s :=
  skipFieldWithin_accepts _ w f s

/-- `x` gets past the word `bs`. -/
def Passes (x : ParseM O Unit) (bs : List UInt8) (s : Parse O) : Prop :=
  ∃ n ≤ s.ctx.limits.maxRecursionDepth, x s = .ok () (s.moved bs.length n)

private theorem skipFieldWith_leaf {g : ℕ → ParseM O Unit} {w : WireType} {f : ℕ}
    {bs xs : List UInt8} {t : Tree} {s : Parse O} (hr : s.reader.rest = bs ++ xs)
    (h : Leaf f w.code bs t) : Passes (skipFieldWith g w f) bs s := by
  refine ⟨0, Nat.zero_le _, ?_⟩
  rw [Parse.moved_zero]
  have fixed : ∀ k, bs.length = k → withField f (onReader (Reader.skip k)) s =
      .ok () { s with reader := s.reader.advance bs.length } := by
    intro k hk
    exact withField_eq_ok.mpr (onReader_eq_ok.mpr ⟨_, Reader.skip_splits.mpr ⟨bs, xs, hr, hk, rfl⟩, rfl⟩)
  generalize hc : w.code = c at h
  cases h with
  | varint hv =>
    obtain rfl : w = .varint := WireType.code_injective hc
    refine withField_eq_ok.mpr (onReader_eq_ok.mpr ⟨_, ?_, rfl⟩)
    exact bind_eq_ok.mpr ⟨_, _, readVarint_of_varint hv hr, rfl⟩
  | fixed64 hl =>
    obtain rfl : w = .i64 := WireType.code_injective hc
    exact fixed 8 hl
  | @bytes ls payload hv =>
    obtain rfl : w = .len := WireType.code_injective hc
    rw [List.append_assoc] at hr
    refine withField_eq_ok.mpr (onReader_eq_ok.mpr ⟨_, ?_, rfl⟩)
    refine bind_eq_ok.mpr ⟨_, _, readLengthDelimitedSize_eq_ok.mpr ⟨ls, _, hr, hv, rfl⟩, ?_⟩
    exact Reader.skip_splits.mpr
      ⟨payload, xs, by simp [hr], rfl, by rw [Reader.advance_advance, List.length_append]⟩
  | fixed32 hl =>
    obtain rfl : w = .i32 := WireType.code_injective hc
    exact fixed 4 hl

/-- Within a budget of `d` levels, a body is passed when the loop bounds exceed the bytes left. -/
private def Skipping (O : Type) (d : ℕ) : Prop :=
  ∀ (w : WireType) (n f : ℕ) (bs xs : List UInt8) (t : Tree) (s : Parse O),
    s.reader.rest = bs ++ xs → s.reader.rest.length < n → d ≤ s.levels →
    Body d f w.code bs t → Passes (skipFieldWith (skipGroupWithin n) w f) bs s

private theorem skipGroupLoop_of_members {d : ℕ} (ihd : Skipping O d) {n f k m : ℕ}
    {bs xs : List UInt8} {ts : List Tree} {s : Parse O} (h : Members (Body d) f bs ts)
    (hr : s.reader.rest.drop k = bs ++ xs) (hk : (s.reader.rest.drop k).length < n)
    (hd : d < s.levels) (hm : m ≤ s.ctx.limits.maxRecursionDepth) :
    ∃ m' ≤ s.ctx.limits.maxRecursionDepth,
      skipGroupLoop n f (s.descended.moved k m) = .ok () (s.moved (k + bs.length) m') := by
  have hlt : s.ctx.recursionDepth + 1 ≤ s.ctx.limits.maxRecursionDepth := by
    unfold Parse.levels at hd; omega
  have hlevels := Parse.levels_descended (Nat.zero_lt_of_lt hd)
  -- the iteration's tag, read from `k` bytes into the group
  have tag : ∀ {w : WireType} {g k m : ℕ} {ks ys : List UInt8}, Key ks g w.code →
      s.reader.rest.drop k = ks ++ ys →
      unwinding f (onReader readTag) (s.descended.moved k m) =
        .ok ⟨g, w⟩ (s.descended.moved (k + ks.length) m) := by
    intro w g k m ks ys hkey hks
    refine unwinding_eq_ok.mpr (onReader_eq_ok.mpr ⟨_, readTag_eq_ok.mpr
      ⟨ks, ys, by simpa using hks, hkey, rfl⟩, ?_⟩)
    rw [← Parse.moved_zero, Parse.moved_moved, Nat.max_zero]
  induction h generalizing n k m with
  | @close es hkey =>
    obtain ⟨n, rfl⟩ : ∃ j, n = j + 1 := ⟨n - 1, by omega⟩
    refine ⟨_, Nat.max_le.mpr ⟨hlt, hm⟩, ?_⟩
    rw [skipGroupLoop_succ, bind_of_ok (tag (w := .egroup) hkey hr), if_pos rfl,
      bind_of_ok (popRecursion_apply _), if_neg (by simp), Parse.popRecursion_moved_descended]
    rfl
  | @member g c ks bs cs t ts hkey hb hts ih =>
    obtain ⟨n, rfl⟩ : ∃ j, n = j + 1 := ⟨n - 1, by omega⟩
    obtain ⟨w, rfl⟩ : ∃ w : WireType, c = w.code :=
      ⟨.ofCode c, (WireType.code_ofCode hkey.2.2.2).symm⟩
    have hw : w ≠ .egroup := by
      rintro rfl
      exact not_body_four d g bs t hb
    have hpos := hkey.length_pos
    rw [List.append_assoc, List.append_assoc] at hr
    have hbody : s.reader.rest.drop (k + ks.length) = bs ++ (cs ++ xs) := by
      rw [← List.drop_drop, hr, List.drop_left]
    have hnext : s.reader.rest.drop (k + ks.length + bs.length) = cs ++ xs := by
      rw [← List.drop_drop, hbody, List.drop_left]
    rw [hr, List.length_append] at hk
    obtain ⟨m₁, hm₁, hpass⟩ := ihd w n g bs (cs ++ xs) t (s.descended.moved (k + ks.length) m)
      (by simpa using hbody)
      (by rw [Parse.moved_reader, Parse.descended_reader, Reader.rest_advance, hbody]; omega)
      (by rw [Parse.levels_moved]; omega) hb
    rw [Parse.moved_moved] at hpass
    obtain ⟨m', hm', hloop⟩ := ih (n := n) hnext
      (by rw [hnext]; simp only [List.length_append] at hk ⊢; omega)
      (Nat.max_le.mpr ⟨hm, hm₁⟩)
    refine ⟨m', hm', ?_⟩
    rw [skipGroupLoop_succ, bind_of_ok (tag hkey hr), if_neg hw,
      bind_of_ok (unwinding_eq_ok.mpr hpass), hloop]
    simp only [List.length_append, Nat.add_assoc]

private theorem skipping (d : ℕ) : Skipping O d := by
  induction d with
  | zero => intro w n f bs xs t s hr _ _ hb; exact skipFieldWith_leaf hr hb
  | succ d ih =>
    intro w n f bs xs t s hr hn hd hb
    rcases hb with hb | ⟨hc, ts, rfl, hm⟩
    · exact skipFieldWith_leaf hr hb
    obtain rfl : w = .sgroup := WireType.code_injective hc
    obtain ⟨m', hm', h⟩ := skipGroupLoop_of_members ih (k := 0) (m := 0) hm (by simpa using hr)
      (by simpa using hn) (by omega) (Nat.zero_le _)
    rw [moved_zero_zero, Nat.zero_add] at h
    refine ⟨m', hm', withField_eq_ok.mpr ?_⟩
    exact (bind_of_ok (withField_eq_ok.mpr
      (pushRecursion_eq_ok.mpr ⟨Nat.lt_of_sub_pos (by unfold Parse.levels at hd; omega), rfl⟩))).trans h

theorem skipField_passes {w : WireType} {f : ℕ} {bs xs : List UInt8} {t : Tree} {s : Parse O}
    (hr : s.reader.rest = bs ++ xs) (h : Body s.levels f w.code bs t) :
    Passes (skipField w f) bs s :=
  skipping s.levels w _ f bs xs t s hr (Nat.lt_succ_self _) (Nat.le_refl _) h

end Protocyte
