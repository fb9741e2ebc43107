import Protocyte.Runtime.Core

/-! Readers. A stack of readers is one value, the wrapped reader inside the wrapper, so a read
through the outer one moves them all. `rest` is what the stack can still deliver and `advance`
moves it; every operation is characterised by the two. -/
namespace Protocyte

structure SliceReader where
  data : List UInt8
  baseOffset : ℕ := 0
  pos : ℕ := 0
  pos_le : pos ≤ data.length := by simp

namespace SliceReader

def eof (r : SliceReader) : Bool := r.pos ≥ r.data.length

def position (r : SliceReader) : ℕ := r.baseOffset + r.pos

def rest (r : SliceReader) : List UInt8 := r.data.drop r.pos

/-- Moving stops at the end of the slice. -/
def advance (r : SliceReader) (n : ℕ) : SliceReader :=
  { r with pos := min (r.pos + n) r.data.length, pos_le := Nat.min_le_right _ _ }

def unexpectedEof (r : SliceReader) : Error := { code := .unexpectedEof, offset := r.position }

def canRead (count : ℕ) (r : SliceReader) : Except Error Unit :=
  if count > r.data.length - r.pos then .error r.unexpectedEof else .ok ()

def readByte : EStateM Error SliceReader UInt8 := fun r =>
  if h : r.pos < r.data.length then .ok r.data[r.pos] (r.advance 1) else .error r.unexpectedEof r

def read (count : ℕ) : EStateM Error SliceReader (List UInt8) := fun r =>
  if count > r.data.length - r.pos then .error r.unexpectedEof r
  else .ok ((r.data.drop r.pos).take count) (r.advance count)

def skip (count : ℕ) : EStateM Error SliceReader Unit := fun r =>
  if count > r.data.length - r.pos then .error r.unexpectedEof r else .ok () (r.advance count)

@[simp] theorem length_rest (r : SliceReader) : r.rest.length = r.data.length - r.pos := by
  simp [rest]

@[simp] theorem rest_advance (r : SliceReader) (n : ℕ) :
    (r.advance n).rest = r.rest.drop n := by
  have hp := r.pos_le
  by_cases h : r.pos + n ≤ r.data.length
  · simp [rest, advance, Nat.min_eq_left h]
  · simp [rest, advance, Nat.min_eq_right (by omega : r.data.length ≤ r.pos + n)]
    omega

theorem advance_advance (r : SliceReader) (m n : ℕ) :
    (r.advance m).advance n = r.advance (m + n) := by
  have hp := r.pos_le
  simp only [advance, mk.injEq, true_and]
  omega

theorem position_advance (r : SliceReader) {n : ℕ} (h : n ≤ r.rest.length) :
    (r.advance n).position = r.position + n := by
  have hp := r.pos_le
  simp only [length_rest] at h
  simp only [position, advance]
  omega

theorem eof_iff (r : SliceReader) : r.eof = true ↔ r.rest = [] := by
  simp [eof, rest]

theorem readByte_eq (r : SliceReader) : readByte r = match r.rest with
    | [] => .error r.unexpectedEof r
    | b :: _ => .ok b (r.advance 1) := by
  unfold readByte
  by_cases h : r.pos < r.data.length
  · have hc : r.rest = r.data[r.pos] :: r.data.drop (r.pos + 1) := List.drop_eq_getElem_cons h
    rw [dif_pos h, hc]
  · have hc : r.rest = [] := by simp [rest]; omega
    rw [dif_neg h, hc]

theorem read_eq (r : SliceReader) (n : ℕ) :
    r.read n = if n ≤ r.rest.length then .ok (r.rest.take n) (r.advance n)
      else .error r.unexpectedEof r := by
  unfold read
  rw [length_rest]
  by_cases h : n ≤ r.data.length - r.pos
  · rw [if_neg (by omega), if_pos h]; rfl
  · rw [if_pos (by omega), if_neg h]

theorem skip_eq (r : SliceReader) (n : ℕ) :
    r.skip n = if n ≤ r.rest.length then .ok () (r.advance n) else .error r.unexpectedEof r := by
  unfold skip
  rw [length_rest]
  by_cases h : n ≤ r.data.length - r.pos
  · rw [if_neg (by omega), if_pos h]
  · rw [if_pos (by omega), if_neg h]

theorem canRead_eq (r : SliceReader) (n : ℕ) :
    r.canRead n = if n ≤ r.rest.length then .ok () else .error r.unexpectedEof := by
  unfold canRead
  rw [length_rest]
  by_cases h : n ≤ r.data.length - r.pos
  · rw [if_neg (by omega), if_pos h]
  · rw [if_pos (by omega), if_neg h]

end SliceReader

/-- Every nesting of the runtime's readers. The budgets of `ParseBudgetReader` count bytes,
repeated elements and map entries; `StagedReader` reads its own bytes and charges the counts to
the reader it was staged from. -/
inductive Reader
  | slice (reader : SliceReader)
  | parseBudget (inner : Reader)
      (remaining maxRepeatedElements maxMapEntries repeatedElements mapEntries : ℕ)
  | limited (inner : Reader) (remaining : ℕ)
  | ref (inner : Reader)
  | staged (reader : SliceReader) (budgetReader : Reader)

/-- A computation that reads. -/
abbrev ReaderM := EStateM Error Reader

namespace Reader

def eof : Reader → Bool
  | slice r | staged r _ => r.eof
  | parseBudget inner remaining .. => remaining == 0 || inner.eof
  | limited _ remaining => remaining == 0
  | ref inner => inner.eof

def position : Reader → ℕ
  | slice r | staged r _ => r.position
  | parseBudget inner .. | limited inner _ | ref inner => inner.position

def limitReached : Reader → Bool
  | parseBudget inner remaining .. => remaining == 0 && !inner.eof
  | _ => false

/-- The bytes the stack can still deliver. -/
def rest : Reader → List UInt8
  | slice r | staged r _ => r.rest
  | parseBudget inner remaining .. | limited inner remaining => inner.rest.take remaining
  | ref inner => inner.rest

/-- The stack after `n` of its bytes have been consumed. -/
def advance (n : ℕ) : Reader → Reader
  | slice r => slice (r.advance n)
  | parseBudget inner remaining maxRep maxMap rep map =>
    parseBudget (inner.advance n) (remaining - n) maxRep maxMap rep map
  | limited inner remaining => limited (inner.advance n) (remaining - n)
  | ref inner => ref (inner.advance n)
  | staged r budget => staged (r.advance n) budget

/-- The error of an attempt to consume `n` bytes when fewer are left: each wrapper checks its own
budget before it asks the wrapped reader. -/
def shortage (n : ℕ) : Reader → Error
  | slice r | staged r _ => r.unexpectedEof
  | parseBudget inner remaining .. =>
    if n > remaining then { code := .sizeLimit, offset := inner.position } else inner.shortage n
  | limited inner remaining =>
    if n > remaining then { code := .unexpectedEof, offset := inner.position } else inner.shortage n
  | ref inner => inner.shortage n

def canRead (count : ℕ) : Reader → Except Error Unit
  | slice r | staged r _ => r.canRead count
  | parseBudget inner remaining .. =>
    if count > remaining then .error { code := .sizeLimit, offset := inner.position }
    else inner.canRead count
  | limited inner remaining =>
    if count > remaining then .error { code := .unexpectedEof, offset := inner.position }
    else inner.canRead count
  | ref inner => inner.canRead count

def readByte : ReaderM UInt8
  | slice r => match r.readByte with
    | .ok b r' => .ok b (slice r')
    | .error e r' => .error e (slice r')
  | parseBudget inner remaining maxRep maxMap rep map =>
    if remaining = 0 then
      .error { code := .sizeLimit, offset := inner.position }
        (parseBudget inner remaining maxRep maxMap rep map)
    else match readByte inner with
      | .ok b inner' => .ok b (parseBudget inner' (remaining - 1) maxRep maxMap rep map)
      | .error e inner' => .error e (parseBudget inner' remaining maxRep maxMap rep map)
  | limited inner remaining =>
    if remaining = 0 then
      .error { code := .unexpectedEof, offset := inner.position } (limited inner remaining)
    else match readByte inner with
      | .ok b inner' => .ok b (limited inner' (remaining - 1))
      | .error e inner' => .error e (limited inner' remaining)
  | ref inner => match readByte inner with
    | .ok b inner' => .ok b (ref inner')
    | .error e inner' => .error e (ref inner')
  | staged r budget => match r.readByte with
    | .ok b r' => .ok b (staged r' budget)
    | .error e r' => .error e (staged r' budget)

def read (count : ℕ) : ReaderM (List UInt8)
  | slice r => match r.read count with
    | .ok bs r' => .ok bs (slice r')
    | .error e r' => .error e (slice r')
  | parseBudget inner remaining maxRep maxMap rep map =>
    if count > remaining then
      .error { code := .sizeLimit, offset := inner.position }
        (parseBudget inner remaining maxRep maxMap rep map)
    else match read count inner with
      | .ok bs inner' => .ok bs (parseBudget inner' (remaining - count) maxRep maxMap rep map)
      | .error e inner' => .error e (parseBudget inner' remaining maxRep maxMap rep map)
  | limited inner remaining =>
    if count > remaining then
      .error { code := .unexpectedEof, offset := inner.position } (limited inner remaining)
    else match read count inner with
      | .ok bs inner' => .ok bs (limited inner' (remaining - count))
      | .error e inner' => .error e (limited inner' remaining)
  | ref inner => match read count inner with
    | .ok bs inner' => .ok bs (ref inner')
    | .error e inner' => .error e (ref inner')
  | staged r budget => match r.read count with
    | .ok bs r' => .ok bs (staged r' budget)
    | .error e r' => .error e (staged r' budget)

def skip (count : ℕ) : ReaderM Unit
  | slice r => match r.skip count with
    | .ok u r' => .ok u (slice r')
    | .error e r' => .error e (slice r')
  | parseBudget inner remaining maxRep maxMap rep map =>
    if count > remaining then
      .error { code := .sizeLimit, offset := inner.position }
        (parseBudget inner remaining maxRep maxMap rep map)
    else match skip count inner with
      | .ok u inner' => .ok u (parseBudget inner' (remaining - count) maxRep maxMap rep map)
      | .error e inner' => .error e (parseBudget inner' remaining maxRep maxMap rep map)
  | limited inner remaining =>
    if count > remaining then
      .error { code := .unexpectedEof, offset := inner.position } (limited inner remaining)
    else match skip count inner with
      | .ok u inner' => .ok u (limited inner' (remaining - count))
      | .error e inner' => .error e (limited inner' remaining)
  | ref inner => match skip count inner with
    | .ok u inner' => .ok u (ref inner')
    | .error e inner' => .error e (ref inner')
  | staged r budget => match r.skip count with
    | .ok u r' => .ok u (staged r' budget)
    | .error e r' => .error e (staged r' budget)

/-- `LimitedReader::finish` -/
def finish : ReaderM Unit := fun r =>
  match r with
  | limited _ remaining => skip remaining r
  | slice _ | parseBudget .. | ref _ | staged .. => .ok () r

/-- What a parse may still take besides bytes. -/
inductive Budget
  | repeatedElements
  | mapEntries

/-- A slice reader has no budgets; a parse never reads from one directly. -/
def consume (budget : Budget) (count fieldNumber : ℕ) : ReaderM Unit
  | slice r => .ok () (slice r)
  | parseBudget inner remaining maxRep maxMap rep map =>
    match budget with
    | .repeatedElements =>
      if rep > maxRep ∨ count > maxRep - rep then
        .error { code := .countLimit, offset := inner.position, fieldNumber }
          (parseBudget inner remaining maxRep maxMap rep map)
      else .ok () (parseBudget inner remaining maxRep maxMap (rep + count) map)
    | .mapEntries =>
      if map > maxMap ∨ count > maxMap - map then
        .error { code := .countLimit, offset := inner.position, fieldNumber }
          (parseBudget inner remaining maxRep maxMap rep map)
      else .ok () (parseBudget inner remaining maxRep maxMap rep (map + count))
  | limited inner remaining => match consume budget count fieldNumber inner with
    | .ok u inner' => .ok u (limited inner' remaining)
    | .error e inner' => .error e (limited inner' remaining)
  | ref inner => match consume budget count fieldNumber inner with
    | .ok u inner' => .ok u (ref inner')
    | .error e inner' => .error e (ref inner')
  | staged r budgetReader => match consume budget count fieldNumber budgetReader with
    | .ok u budgetReader' => .ok u (staged r budgetReader')
    | .error e budgetReader' => .error { e with offset := r.position } (staged r budgetReader')

def consumeRepeatedElements (count fieldNumber : ℕ) : ReaderM Unit :=
  consume .repeatedElements count fieldNumber

def consumeMapEntries (count fieldNumber : ℕ) : ReaderM Unit :=
  consume .mapEntries count fieldNumber

/-- The reader a wrapper was made from. -/
def wrapped : Reader → Reader
  | slice r => slice r
  | parseBudget inner .. | limited inner _ | ref inner => inner
  | staged _ budgetReader => budgetReader

/-- A reference delivers what its reader does and fails where it does. -/
example (inner : Reader) (n : ℕ) : (ref inner).rest = inner.rest ∧
    (ref inner).shortage n = inner.shortage n ∧ (ref inner).advance n = ref (inner.advance n) := by
  simp only [rest, shortage, advance, and_self]

@[simp] theorem rest_advance (r : Reader) (n : ℕ) : (r.advance n).rest = r.rest.drop n := by
  induction r with
  | slice r => exact r.rest_advance n
  | parseBudget inner remaining maxRep maxMap rep map ih =>
    simp only [advance, rest, ih, List.drop_take]
  | limited inner remaining ih => simp only [advance, rest, ih, List.drop_take]
  | ref inner ih => exact ih
  | staged r budget _ => exact r.rest_advance n

theorem advance_advance (r : Reader) (m n : ℕ) :
    (r.advance m).advance n = r.advance (m + n) := by
  induction r with
  | slice r => simp only [advance, r.advance_advance]
  | parseBudget inner remaining maxRep maxMap rep map ih =>
    simp only [advance, ih, Nat.sub_sub]
  | limited inner remaining ih => simp only [advance, ih, Nat.sub_sub]
  | ref inner ih => simp only [advance, ih]
  | staged r budget _ => simp only [advance, r.advance_advance]

theorem position_advance (r : Reader) {n : ℕ} (h : n ≤ r.rest.length) :
    (r.advance n).position = r.position + n := by
  induction r with
  | slice r => exact r.position_advance h
  | parseBudget inner remaining maxRep maxMap rep map ih =>
    exact ih (by simp only [rest, List.length_take] at h; omega)
  | limited inner remaining ih =>
    exact ih (by simp only [rest, List.length_take] at h; omega)
  | ref inner ih => exact ih h
  | staged r budget _ => exact r.position_advance h

theorem canRead_eq (r : Reader) (n : ℕ) :
    r.canRead n = if n ≤ r.rest.length then .ok () else .error (r.shortage n) := by
  induction r with
  | slice r => exact r.canRead_eq n
  | parseBudget inner remaining maxRep maxMap rep map ih =>
    simp only [canRead, rest, List.length_take, shortage, ih]
    by_cases hr : n > remaining
    · rw [if_pos hr, if_neg (by omega), if_pos hr]
    · rw [if_neg hr, if_neg hr]
      exact if_congr (by omega) rfl rfl
  | limited inner remaining ih =>
    simp only [canRead, rest, List.length_take, shortage, ih]
    by_cases hr : n > remaining
    · rw [if_pos hr, if_neg (by omega), if_pos hr]
    · rw [if_neg hr, if_neg hr]
      exact if_congr (by omega) rfl rfl
  | ref inner ih => exact ih
  | staged r budget _ => exact r.canRead_eq n

theorem read_eq (r : Reader) (n : ℕ) :
    r.read n = if n ≤ r.rest.length then .ok (r.rest.take n) (r.advance n)
      else .error (r.shortage n) r := by
  induction r with
  | slice r =>
    simp only [read, r.read_eq, rest, shortage, advance]
    by_cases h : n ≤ r.rest.length <;> simp only [h, if_true, if_false]
  | parseBudget inner remaining maxRep maxMap rep map ih =>
    simp only [read, rest, List.length_take, shortage, ih, advance]
    by_cases hr : n > remaining
    · rw [if_pos hr, if_neg (by omega), if_pos hr]
    · by_cases h : n ≤ inner.rest.length
      · rw [if_neg hr, if_pos h, if_pos (by omega), List.take_take, Nat.min_eq_left (by omega)]
      · rw [if_neg hr, if_neg h, if_neg (by omega), if_neg hr]
  | limited inner remaining ih =>
    simp only [read, rest, List.length_take, shortage, ih, advance]
    by_cases hr : n > remaining
    · rw [if_pos hr, if_neg (by omega), if_pos hr]
    · by_cases h : n ≤ inner.rest.length
      · rw [if_neg hr, if_pos h, if_pos (by omega), List.take_take, Nat.min_eq_left (by omega)]
      · rw [if_neg hr, if_neg h, if_neg (by omega), if_neg hr]
  | ref inner ih =>
    simp only [read, rest, shortage, ih, advance]
    by_cases h : n ≤ inner.rest.length <;> simp only [h, if_true, if_false]
  | staged r budget _ =>
    simp only [read, r.read_eq, rest, shortage, advance]
    by_cases h : n ≤ r.rest.length <;> simp only [h, if_true, if_false]

theorem skip_eq (r : Reader) (n : ℕ) :
    r.skip n = if n ≤ r.rest.length then .ok () (r.advance n)
      else .error (r.shortage n) r := by
  induction r with
  | slice r =>
    simp only [skip, r.skip_eq, rest, shortage, advance]
    by_cases h : n ≤ r.rest.length <;> simp only [h, if_true, if_false]
  | parseBudget inner remaining maxRep maxMap rep map ih =>
    simp only [skip, rest, List.length_take, shortage, ih, advance]
    by_cases hr : n > remaining
    · rw [if_pos hr, if_neg (by omega), if_pos hr]
    · by_cases h : n ≤ inner.rest.length
      · rw [if_neg hr, if_pos h, if_pos (by omega)]
      · rw [if_neg hr, if_neg h, if_neg (by omega), if_neg hr]
  | limited inner remaining ih =>
    simp only [skip, rest, List.length_take, shortage, ih, advance]
    by_cases hr : n > remaining
    · rw [if_pos hr, if_neg (by omega), if_pos hr]
    · by_cases h : n ≤ inner.rest.length
      · rw [if_neg hr, if_pos h, if_pos (by omega)]
      · rw [if_neg hr, if_neg h, if_neg (by omega), if_neg hr]
  | ref inner ih =>
    simp only [skip, rest, shortage, ih, advance]
    by_cases h : n ≤ inner.rest.length <;> simp only [h, if_true, if_false]
  | staged r budget _ =>
    simp only [skip, r.skip_eq, rest, shortage, advance]
    by_cases h : n ≤ r.rest.length <;> simp only [h, if_true, if_false]

theorem readByte_eq (r : Reader) : r.readByte = match r.rest with
    | [] => .error (r.shortage 1) r
    | b :: _ => .ok b (r.advance 1) := by
  induction r with
  | slice r =>
    simp only [readByte, r.readByte_eq, rest, shortage, advance]
    cases r.rest <;> rfl
  | parseBudget inner remaining maxRep maxMap rep map ih =>
    simp only [readByte, rest, shortage, advance, ih]
    cases remaining with
    | zero => simp
    | succ n => cases inner.rest <;> simp
  | limited inner remaining ih =>
    simp only [readByte, rest, shortage, advance, ih]
    cases remaining with
    | zero => simp
    | succ n => cases inner.rest <;> simp
  | ref inner ih =>
    simp only [readByte, rest, shortage, advance, ih]
    cases inner.rest <;> rfl
  | staged r budget _ =>
    simp only [readByte, r.readByte_eq, rest, shortage, advance]
    cases r.rest <;> rfl

/-- The stack without what it has counted. -/
def uncounted : Reader → Reader
  | slice r => slice r
  | parseBudget inner remaining maxRep maxMap _ _ =>
    parseBudget inner.uncounted remaining maxRep maxMap 0 0
  | limited inner remaining => limited inner.uncounted remaining
  | ref inner => ref inner.uncounted
  | staged r budgetReader => staged r budgetReader.uncounted

@[simp] theorem rest_uncounted (r : Reader) : r.uncounted.rest = r.rest := by
  induction r with
  | slice r | staged r b _ => rfl
  | parseBudget inner remaining maxRep maxMap rep map ih => simp only [uncounted, rest, ih]
  | limited inner remaining ih => simp only [uncounted, rest, ih]
  | ref inner ih => simp only [uncounted, rest, ih]

@[simp] theorem position_uncounted (r : Reader) : r.uncounted.position = r.position := by
  induction r with
  | slice r | staged r b _ => rfl
  | parseBudget inner remaining maxRep maxMap rep map ih => exact ih
  | limited inner remaining ih => exact ih
  | ref inner ih => exact ih

theorem eof_uncounted (r : Reader) : r.uncounted.eof = r.eof := by
  induction r with
  | slice r | staged r b _ => rfl
  | parseBudget inner remaining maxRep maxMap rep map ih => simp only [uncounted, eof, ih]
  | limited inner remaining ih => rfl
  | ref inner ih => exact ih

theorem uncounted_advance (r : Reader) (n : ℕ) :
    (r.advance n).uncounted = r.uncounted.advance n := by
  induction r with
  | slice r | staged r b _ => rfl
  | parseBudget inner remaining maxRep maxMap rep map ih => simp only [uncounted, advance, ih]
  | limited inner remaining ih => simp only [uncounted, advance, ih]
  | ref inner ih => simp only [uncounted, advance, ih]

theorem consume_exits (budget : Budget) (count n : ℕ) (r : Reader) :
    Foundation.Computation.Exits (consume budget count n r)
      (fun _ r' => r'.uncounted = r.uncounted)
      (fun e r' => r' = r ∧ e.code = .countLimit) := by
  induction r with
  | slice r => exact rfl
  | parseBudget inner remaining maxRep maxMap rep map ih =>
    cases budget with
    | repeatedElements =>
      unfold consume
      by_cases h : rep > maxRep ∨ count > maxRep - rep
      · simp only [if_pos h]
        exact ⟨rfl, rfl⟩
      · simp only [if_neg h]
        exact rfl
    | mapEntries =>
      unfold consume
      by_cases h : map > maxMap ∨ count > maxMap - map
      · simp only [if_pos h]
        exact ⟨rfl, rfl⟩
      · simp only [if_neg h]
        exact rfl
  | limited inner remaining ih =>
    unfold consume
    cases h : consume budget count n inner with
    | ok u inner' => exact congrArg (limited · remaining) (ih.ok h)
    | error e inner' => exact ⟨congrArg (limited · remaining) (ih.error h).1, (ih.error h).2⟩
  | ref inner ih =>
    unfold consume
    cases h : consume budget count n inner with
    | ok u inner' => exact congrArg ref (ih.ok h)
    | error e inner' => exact ⟨congrArg ref (ih.error h).1, (ih.error h).2⟩
  | staged r b ih =>
    unfold consume
    cases h : consume budget count n b with
    | ok u b' => exact congrArg (staged r ·) (ih.ok h)
    | error e b' => exact ⟨congrArg (staged r ·) (ih.error h).1, (ih.error h).2⟩

section Charges

variable {budget : Budget} {fieldNumber n : ℕ} {r r' : Reader}

theorem consume_limited_eq_ok {inner : Reader} {remaining : ℕ} :
    consume budget n fieldNumber (limited inner remaining) = .ok () r' ↔
      ∃ inner', consume budget n fieldNumber inner = .ok () inner' ∧ r' = limited inner' remaining := by
  simp only [consume]
  cases consume budget n fieldNumber inner <;> simp [eq_comm]

theorem consume_ref_eq_ok {inner : Reader} :
    consume budget n fieldNumber (ref inner) = .ok () r' ↔
      ∃ inner', consume budget n fieldNumber inner = .ok () inner' ∧ r' = ref inner' := by
  simp only [consume]
  cases consume budget n fieldNumber inner <;> simp [eq_comm]

theorem consume_staged_eq_ok {reader : SliceReader} {inner : Reader} :
    consume budget n fieldNumber (staged reader inner) = .ok () r' ↔
      ∃ inner', consume budget n fieldNumber inner = .ok () inner' ∧ r' = staged reader inner' := by
  simp only [consume]
  cases consume budget n fieldNumber inner <;> simp [eq_comm]

/-- A charge and a move touch different parts of the stack. -/
theorem consume_advance (budget : Budget) (n fieldNumber k : ℕ) (r r' : Reader) :
    consume budget n fieldNumber (r.advance k) = .ok () r' ↔
      ∃ r₁, consume budget n fieldNumber r = .ok () r₁ ∧ r' = r₁.advance k := by
  induction r generalizing r' with
  | slice s => simp [consume, advance, eq_comm]
  | parseBudget inner remaining maxRep maxMap rep map ih =>
    cases budget with
    | repeatedElements =>
      simp only [consume, advance]
      by_cases h : rep > maxRep ∨ n > maxRep - rep
      · simp [h]
      · simp [h, advance, eq_comm]
    | mapEntries =>
      simp only [consume, advance]
      by_cases h : map > maxMap ∨ n > maxMap - map
      · simp [h]
      · simp [h, advance, eq_comm]
  | limited inner remaining ih =>
    simp only [advance, consume_limited_eq_ok, ih]
    constructor
    · rintro ⟨_, ⟨r₁, h, rfl⟩, rfl⟩
      exact ⟨_, ⟨r₁, h, rfl⟩, rfl⟩
    · rintro ⟨_, ⟨r₁, h, rfl⟩, rfl⟩
      exact ⟨_, ⟨r₁, h, rfl⟩, rfl⟩
  | ref inner ih =>
    simp only [advance, consume_ref_eq_ok, ih]
    constructor
    · rintro ⟨_, ⟨r₁, h, rfl⟩, rfl⟩
      exact ⟨_, ⟨r₁, h, rfl⟩, rfl⟩
    · rintro ⟨_, ⟨r₁, h, rfl⟩, rfl⟩
      exact ⟨_, ⟨r₁, h, rfl⟩, rfl⟩
  | staged s b ih =>
    simp only [advance, consume_staged_eq_ok]
    constructor
    · rintro ⟨b', h, rfl⟩
      exact ⟨_, ⟨b', h, rfl⟩, rfl⟩
    · rintro ⟨_, ⟨b', h, rfl⟩, rfl⟩
      exact ⟨b', h, rfl⟩

/-- Charges add up. -/
theorem consume_add (budget : Budget) (m n fieldNumber : ℕ) (r r' : Reader) :
    consume budget (m + n) fieldNumber r = .ok () r' ↔
      ∃ r₁, consume budget m fieldNumber r = .ok () r₁ ∧
        consume budget n fieldNumber r₁ = .ok () r' := by
  induction r generalizing r' with
  | slice s => simp [consume]
  | parseBudget inner remaining maxRep maxMap rep map ih =>
    cases budget with
    | repeatedElements =>
      simp only [consume]
      by_cases h : rep > maxRep ∨ m > maxRep - rep
      · have hsum : rep > maxRep ∨ m + n > maxRep - rep := by omega
        simp [h, hsum]
      · by_cases hn : rep + m > maxRep ∨ n > maxRep - (rep + m)
        · have hsum : rep > maxRep ∨ m + n > maxRep - rep := by omega
          simp [h, hn, hsum, consume]
        · have hsum : ¬(rep > maxRep ∨ m + n > maxRep - rep) := by omega
          simp [h, hn, hsum, consume, Nat.add_assoc]
    | mapEntries =>
      simp only [consume]
      by_cases h : map > maxMap ∨ m > maxMap - map
      · have hsum : map > maxMap ∨ m + n > maxMap - map := by omega
        simp [h, hsum]
      · by_cases hn : map + m > maxMap ∨ n > maxMap - (map + m)
        · have hsum : map > maxMap ∨ m + n > maxMap - map := by omega
          simp [h, hn, hsum, consume]
        · have hsum : ¬(map > maxMap ∨ m + n > maxMap - map) := by omega
          simp [h, hn, hsum, consume, Nat.add_assoc]
  | limited inner remaining ih =>
    simp only [consume_limited_eq_ok, ih]
    constructor
    · rintro ⟨inner', ⟨r₁, h, h'⟩, rfl⟩
      exact ⟨_, ⟨r₁, h, rfl⟩, consume_limited_eq_ok.mpr ⟨inner', h', rfl⟩⟩
    · rintro ⟨_, ⟨r₁, h, rfl⟩, h'⟩
      obtain ⟨inner', hn, rfl⟩ := consume_limited_eq_ok.mp h'
      exact ⟨inner', ⟨r₁, h, hn⟩, rfl⟩
  | ref inner ih =>
    simp only [consume_ref_eq_ok, ih]
    constructor
    · rintro ⟨inner', ⟨r₁, h, h'⟩, rfl⟩
      exact ⟨_, ⟨r₁, h, rfl⟩, consume_ref_eq_ok.mpr ⟨inner', h', rfl⟩⟩
    · rintro ⟨_, ⟨r₁, h, rfl⟩, h'⟩
      obtain ⟨inner', hn, rfl⟩ := consume_ref_eq_ok.mp h'
      exact ⟨inner', ⟨r₁, h, hn⟩, rfl⟩
  | staged s b ih =>
    simp only [consume_staged_eq_ok, ih]
    constructor
    · rintro ⟨b', ⟨r₁, h, h'⟩, rfl⟩
      exact ⟨_, ⟨r₁, h, rfl⟩, consume_staged_eq_ok.mpr ⟨b', h', rfl⟩⟩
    · rintro ⟨_, ⟨r₁, h, rfl⟩, h'⟩
      obtain ⟨b', hn, rfl⟩ := consume_staged_eq_ok.mp h'
      exact ⟨b', ⟨r₁, h, hn⟩, rfl⟩

theorem consume_zero (h : consume budget 0 fieldNumber r = .ok () r') : r' = r := by
  induction r generalizing r' with
  | slice s => exact (EStateM.Result.ok.inj h).2.symm
  | parseBudget inner remaining maxRep maxMap rep map ih =>
    cases budget with
    | repeatedElements =>
      simp only [consume] at h
      split_ifs at h
      exact (EStateM.Result.ok.inj h).2.symm
    | mapEntries =>
      simp only [consume] at h
      split_ifs at h
      exact (EStateM.Result.ok.inj h).2.symm
  | limited inner remaining ih =>
    obtain ⟨inner', hin, rfl⟩ := consume_limited_eq_ok.mp h
    rw [ih hin]
  | ref inner ih =>
    obtain ⟨inner', hin, rfl⟩ := consume_ref_eq_ok.mp h
    rw [ih hin]
  | staged s b ih =>
    obtain ⟨b', hin, rfl⟩ := consume_staged_eq_ok.mp h
    rw [ih hin]

/-- What is left to read is not changed by a charge. -/
theorem rest_of_consume (h : consume budget n fieldNumber r = .ok () r') : r'.rest = r.rest := by
  have huncounted := (consume_exits budget n fieldNumber r).ok h
  rw [← rest_uncounted r', huncounted, rest_uncounted]

end Charges

@[simp] theorem advance_zero (r : Reader) : r.advance 0 = r := by
  induction r with
  | slice s | staged s b _ =>
    simp [Reader.advance, SliceReader.advance, Nat.min_eq_left s.pos_le]
  | parseBudget inner remaining maxRep maxMap rep map ih => simp [Reader.advance, ih]
  | limited inner remaining ih => simp [Reader.advance, ih]
  | ref inner ih => simp [Reader.advance, ih]

/-- `r'` is `r` after `k` bytes, whatever has been counted. -/
structure Moved (r r' : Reader) (k : ℕ) : Prop where
  uncounted : r'.uncounted = r.uncounted.advance k
  le : k ≤ r.rest.length

namespace Moved

variable {r r' r'' : Reader} {j k n : ℕ}

theorem advance (h : k ≤ r.rest.length) : Moved r (r.advance k) k := ⟨uncounted_advance r k, h⟩

theorem of_uncounted (h : r'.uncounted = r.uncounted) : Moved r r' 0 := by
  refine ⟨?_, Nat.zero_le _⟩
  rw [h, advance_zero]

theorem refl (r : Reader) : Moved r r 0 := of_uncounted rfl

theorem rest (h : Moved r r' k) : r'.rest = r.rest.drop k := by
  rw [← rest_uncounted r', h.uncounted, rest_advance, rest_uncounted]

theorem position (h : Moved r r' k) : r'.position = r.position + k := by
  rw [← position_uncounted r', h.uncounted, position_advance _ (by simpa using h.le),
    position_uncounted]

theorem trans (h : Moved r r' j) (h' : Moved r' r'' k) : Moved r r'' (j + k) := by
  have hj := h.le
  have hk := h'.le
  rw [h.rest, List.length_drop] at hk
  exact ⟨by rw [h'.uncounted, h.uncounted, advance_advance], by omega⟩

/-- What a wrapper read, its wrapped reader read. -/
theorem wrapped_limited (h : Moved (limited r n) r' k) : Moved r r'.wrapped k := by
  have hl : k ≤ (r.rest.take n).length := h.le
  rw [List.length_take] at hl
  cases r' with
  | limited inner m => exact ⟨(Reader.limited.inj h.uncounted).1, by omega⟩
  | slice s | parseBudget i a b c d e | ref i | staged s b => cases h.uncounted

theorem wrapped_ref (h : Moved (ref r) r' k) : Moved r r'.wrapped k := by
  cases r' with
  | ref inner => exact ⟨Reader.ref.inj h.uncounted, h.le⟩
  | slice s | parseBudget i a b c d e | limited i m | staged s b => cases h.uncounted

theorem wrapped_parseBudget {a b c d e : ℕ} (h : Moved (parseBudget r a b c d e) r' k) :
    Moved r r'.wrapped k := by
  have hl : k ≤ (r.rest.take a).length := h.le
  rw [List.length_take] at hl
  cases r' with
  | parseBudget inner a' b' c' d' e' =>
    exact ⟨(Reader.parseBudget.inj h.uncounted).1, by omega⟩
  | slice s | ref i | limited i m | staged s b => cases h.uncounted

theorem wrapped_staged {s : SliceReader} (h : Moved (staged s r) r' k) :
    Moved r r'.wrapped 0 := by
  cases r' with
  | staged s' inner => exact of_uncounted (Reader.staged.inj h.uncounted).2
  | slice s | parseBudget i a b c d e | limited i m | ref i => cases h.uncounted

end Moved

end Reader
end Protocyte
