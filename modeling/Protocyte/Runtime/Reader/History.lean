import Protocyte.Runtime.Tags

/-! Histories of a stack of readers. Every layer keeps a count of its own; after any calls on any
of the layers each count has moved by exactly the bytes that were consumed through its layer. -/
namespace Protocyte
open Foundation.Computation

namespace Reader

inductive Call
  | readByte
  | read (count : ℕ)
  | skip (count : ℕ)
  | canRead (count : ℕ)
  | finish

/-- What `finish` skips. -/
def unread : Reader → ℕ
  | limited _ remaining => remaining
  | slice _ | parseBudget .. | ref _ | staged .. => 0

/-- A call, and how many bytes it consumed. -/
def Call.perform : Call → ReaderM ℕ
  | readByte => do
    let _ ← Reader.readByte
    return 1
  | read count => do
    let _ ← Reader.read count
    return count
  | skip count => do
    Reader.skip count
    return count
  | canRead count => fun r => match r.canRead count with
    | .ok _ => .ok 0 r
    | .error e => .error e r
  | finish => fun r => (do
    Reader.finish
    return r.unread : ReaderM ℕ) r

/-- The layers from the outermost one on; a staged reader is made over the reader it charges. -/
def layer : ℕ → Reader → Option Reader
  | 0, r => some r
  | _ + 1, slice _ => none
  | k + 1, parseBudget inner .. | k + 1, limited inner _ | k + 1, ref inner => layer k inner
  | k + 1, staged _ budgetReader => layer k budgetReader

/-- What a wrapper makes of the exits of its inner reader. -/
def rewrap (wrap : Reader → Reader) :
    EStateM.Result Error Reader ℕ → EStateM.Result Error Reader ℕ
  | .ok n inner => .ok n (wrap inner)
  | .error e inner => .error e (wrap inner)

/-- A call on the `k`-th layer; nothing is called where there is none. -/
def onLayer (x : ReaderM ℕ) : ℕ → Reader → EStateM.Result Error Reader ℕ
  | 0, r => x r
  | _ + 1, slice s => .ok 0 (slice s)
  | k + 1, parseBudget inner remaining maxRep maxMap rep map =>
    rewrap (parseBudget · remaining maxRep maxMap rep map) (onLayer x k inner)
  | k + 1, limited inner remaining => rewrap (limited · remaining) (onLayer x k inner)
  | k + 1, ref inner => rewrap ref (onLayer x k inner)
  | k + 1, staged s budgetReader => rewrap (staged s ·) (onLayer x k budgetReader)

/-- Whether what is called on layer `k` is passed on to layer `j`; a staged reader has its bytes
already. -/
def reaches : Reader → ℕ → ℕ → Bool
  | _, 0, 0 => true
  | _, _ + 1, 0 => false
  | slice _, _, _ + 1 => false
  | staged .., 0, _ + 1 => false
  | staged _ budgetReader, k + 1, j + 1 => reaches budgetReader k j
  | parseBudget inner .., 0, j + 1 | limited inner _, 0, j + 1 | ref inner, 0, j + 1 =>
    reaches inner 0 j
  | parseBudget inner .., k + 1, j + 1 | limited inner _, k + 1, j + 1 | ref inner, k + 1, j + 1 =>
    reaches inner k j

/-- The layer of the slice a reader takes its bytes from. -/
def sliceLayer : Reader → ℕ
  | slice _ | staged .. => 0
  | parseBudget inner .. | limited inner _ | ref inner => sliceLayer inner + 1

/-- The slice a reader takes its bytes from. -/
def source : Reader → SliceReader
  | slice s | staged s _ => s
  | parseBudget inner .. | limited inner _ | ref inner => source inner

/-- The stack after a call on one of its layers, and the bytes consumed. -/
def after (r : Reader) (call : ℕ × Call) : Reader × ℕ :=
  match onLayer call.2.perform call.1 r with
  | .ok n r' => (r', n)
  | .error _ r' => (r', 0)

def run (calls : List (ℕ × Call)) (r : Reader) : Reader :=
  calls.foldl (fun r call => (r.after call).1) r

/-- The bytes consumed through layer `j`. -/
def consumed (j : ℕ) : List (ℕ × Call) → Reader → ℕ
  | [], _ => 0
  | call :: calls, r =>
    (if r.reaches call.1 j then (r.after call).2 else 0) + consumed j calls (r.after call).1

/-- `s'` is `s` after `n` bytes. -/
structure Passed (s s' : SliceReader) (n : ℕ) : Prop where
  data : s'.data = s.data
  baseOffset : s'.baseOffset = s.baseOffset
  pos : s'.pos = s.pos + n

/-- `r'` is `r` after `t j` bytes have been consumed through layer `j`, for every `j`. -/
def After (t : ℕ → ℕ) : Reader → Reader → Prop
  | slice s, slice s' => Passed s s' (t 0)
  | parseBudget inner remaining .., parseBudget inner' remaining' .. =>
    remaining' + t 0 = remaining ∧ After (fun j => t (j + 1)) inner inner'
  | limited inner remaining, limited inner' remaining' =>
    remaining' + t 0 = remaining ∧ After (fun j => t (j + 1)) inner inner'
  | ref inner, ref inner' => After (fun j => t (j + 1)) inner inner'
  | staged s budgetReader, staged s' budgetReader' =>
    Passed s s' (t 0) ∧ After (fun j => t (j + 1)) budgetReader budgetReader'
  | _, _ => False

theorem Passed.refl (s : SliceReader) : Passed s s 0 := ⟨rfl, rfl, rfl⟩

theorem Passed.trans {s₁ s₂ s₃ : SliceReader} {m n : ℕ} (h : Passed s₁ s₂ m)
    (h' : Passed s₂ s₃ n) : Passed s₁ s₃ (m + n) := by
  refine ⟨h'.data.trans h.data, h'.baseOffset.trans h.baseOffset, ?_⟩
  rw [h'.pos, h.pos, Nat.add_assoc]

theorem passed_advance {s : SliceReader} {n : ℕ} (h : n ≤ s.rest.length) :
    Passed s (s.advance n) n := by
  have hp := s.pos_le
  rw [SliceReader.length_rest] at h
  refine ⟨rfl, rfl, ?_⟩
  simp only [SliceReader.advance]
  omega

theorem after_zero (r : Reader) : After (fun _ => 0) r r := by
  induction r with
  | slice s => exact .refl s
  | parseBudget inner remaining maxRep maxMap rep map ih => exact ⟨rfl, ih⟩
  | limited inner remaining ih => exact ⟨rfl, ih⟩
  | ref inner ih => exact ih
  | staged s budgetReader ih => exact ⟨.refl s, ih⟩

theorem After.trans {t u : ℕ → ℕ} {r₁ r₂ r₃ : Reader} (h : After t r₁ r₂) (h' : After u r₂ r₃) :
    After (fun j => t j + u j) r₁ r₃ := by
  induction r₁ generalizing t u r₂ r₃ with
  | slice s =>
    cases r₂ with
    | slice s₂ =>
      cases r₃ with
      | slice s₃ => exact Passed.trans h h'
      | parseBudget | limited | ref | staged => exact h'.elim
    | parseBudget | limited | ref | staged => exact h.elim
  | parseBudget inner remaining maxRep maxMap rep map ih =>
    cases r₂ with
    | parseBudget inner₂ remaining₂ =>
      cases r₃ with
      | parseBudget inner₃ remaining₃ =>
        have h1 := h.1
        have h2 := h'.1
        exact ⟨by dsimp only; omega, ih h.2 h'.2⟩
      | slice | limited | ref | staged => exact h'.elim
    | slice | limited | ref | staged => exact h.elim
  | limited inner remaining ih =>
    cases r₂ with
    | limited inner₂ remaining₂ =>
      cases r₃ with
      | limited inner₃ remaining₃ =>
        have h1 := h.1
        have h2 := h'.1
        exact ⟨by dsimp only; omega, ih h.2 h'.2⟩
      | slice | parseBudget | ref | staged => exact h'.elim
    | slice | parseBudget | ref | staged => exact h.elim
  | ref inner ih =>
    cases r₂ with
    | ref inner₂ =>
      cases r₃ with
      | ref inner₃ => exact ih (t := fun j => t (j + 1)) (u := fun j => u (j + 1)) h h'
      | slice | parseBudget | limited | staged => exact h'.elim
    | slice | parseBudget | limited | staged => exact h.elim
  | staged s budgetReader ih =>
    cases r₂ with
    | staged s₂ budgetReader₂ =>
      cases r₃ with
      | staged s₃ budgetReader₃ => exact ⟨h.1.trans h'.1, ih h.2 h'.2⟩
      | slice | parseBudget | limited | ref => exact h'.elim
    | slice | parseBudget | limited | ref => exact h.elim

/-- Moving a stack moves every layer that takes its bytes from below. -/
theorem after_advance {r : Reader} {n : ℕ} (h : n ≤ r.rest.length) :
    After (fun j => if r.reaches 0 j then n else 0) r (r.advance n) := by
  induction r with
  | slice s => exact passed_advance h
  | parseBudget inner remaining maxRep maxMap rep map ih =>
    simp only [rest, List.length_take] at h
    exact ⟨by simp only [reaches, if_true]; omega, ih (by omega)⟩
  | limited inner remaining ih =>
    simp only [rest, List.length_take] at h
    exact ⟨by simp only [reaches, if_true]; omega, ih (by omega)⟩
  | ref inner ih => exact ih h
  | staged s budgetReader _ => exact ⟨passed_advance h, after_zero budgetReader⟩

theorem perform_exits (call : Call) (r : Reader) : Exits (call.perform r)
    (fun n r' => n ≤ r.rest.length ∧ r' = r.advance n) (fun _ r' => r' = r) := by
  have hskip : ∀ n, Exits ((do Reader.skip n; return n : ReaderM ℕ) r)
      (fun n r' => n ≤ r.rest.length ∧ r' = r.advance n) (fun _ r' => r' = r) := by
    intro n
    rw [bind_apply, skip_eq]
    by_cases h : n ≤ r.rest.length
    · simp only [if_pos h]
      exact ⟨h, rfl⟩
    · simp only [if_neg h]
      exact rfl
  cases call with
  | readByte =>
    change Exits ((do let _ ← Reader.readByte; return 1 : ReaderM ℕ) r) _ _
    rw [bind_apply, readByte_eq]
    cases hr : r.rest with
    | nil => exact rfl
    | cons b bs => exact ⟨by simp, rfl⟩
  | read count =>
    change Exits ((do let _ ← Reader.read count; return count : ReaderM ℕ) r) _ _
    rw [bind_apply, read_eq]
    by_cases h : count ≤ r.rest.length
    · simp only [if_pos h]
      exact ⟨h, rfl⟩
    · simp only [if_neg h]
      exact rfl
  | skip count => exact hskip count
  | canRead count =>
    change Exits (match r.canRead count with
      | .ok _ => EStateM.Result.ok 0 r
      | .error e => .error e r) _ _
    cases r.canRead count with
    | ok u => exact ⟨Nat.zero_le _, (advance_zero r).symm⟩
    | error e => exact rfl
  | finish =>
    cases r with
    | limited inner remaining => exact hskip remaining
    | slice s => exact ⟨Nat.zero_le _, (advance_zero _).symm⟩
    | parseBudget inner remaining maxRep maxMap rep map =>
      exact ⟨Nat.zero_le _, (advance_zero _).symm⟩
    | ref inner => exact ⟨Nat.zero_le _, (advance_zero _).symm⟩
    | staged s budgetReader => exact ⟨Nat.zero_le _, (advance_zero _).symm⟩

private theorem rewrap_exits {wrap : Reader → Reader} {res : EStateM.Result Error Reader ℕ}
    {Q : ℕ → Reader → Prop} {r : Reader} (h : Exits res Q (fun _ r' => r' = r)) :
    Exits (rewrap wrap res) (fun n r' => ∃ inner, r' = wrap inner ∧ Q n inner)
      (fun _ r' => r' = wrap r) := by
  cases res with
  | ok n inner => exact ⟨inner, rfl, h⟩
  | error e inner => exact congrArg wrap h

theorem onLayer_exits (call : Call) (k : ℕ) (r : Reader) : Exits (onLayer call.perform k r)
    (fun n r' => After (fun j => if r.reaches k j then n else 0) r r') (fun _ r' => r' = r) := by
  induction k generalizing r with
  | zero =>
    refine (perform_exits call r).mono ?_ fun _ _ h => h
    rintro n _ ⟨hn, rfl⟩
    exact after_advance hn
  | succ k ih =>
    cases r with
    | slice s => exact ⟨rfl, rfl, by simp [reaches]⟩
    | parseBudget inner remaining maxRep maxMap rep map =>
      refine (rewrap_exits (ih inner)).mono ?_ fun _ _ h => h
      rintro n _ ⟨inner', rfl, h⟩
      exact ⟨by simp [reaches], h⟩
    | limited inner remaining =>
      refine (rewrap_exits (ih inner)).mono ?_ fun _ _ h => h
      rintro n _ ⟨inner', rfl, h⟩
      exact ⟨by simp [reaches], h⟩
    | ref inner =>
      refine (rewrap_exits (ih inner)).mono ?_ fun _ _ h => h
      rintro n _ ⟨inner', rfl, h⟩
      exact h
    | staged s budgetReader =>
      refine (rewrap_exits (ih budgetReader)).mono ?_ fun _ _ h => h
      rintro n _ ⟨budgetReader', rfl, h⟩
      exact ⟨by simpa [reaches] using Passed.refl s, h⟩

theorem after_step (call : ℕ × Call) (r : Reader) :
    After (fun j => if r.reaches call.1 j then (r.after call).2 else 0) r (r.after call).1 := by
  have hx := onLayer_exits call.2 call.1 r
  unfold after
  cases h : onLayer call.2.perform call.1 r with
  | ok n r' => exact hx.ok h
  | error e r' =>
    rw [hx.error h]
    simpa using after_zero r

/-- Whatever calls are made, the counts are in step. -/
theorem after_run (calls : List (ℕ × Call)) (r : Reader) :
    After (fun j => consumed j calls r) r (run calls r) := by
  induction calls generalizing r with
  | nil => exact after_zero r
  | cons call calls ih =>
    have h := (after_step call r).trans (ih (r.after call).1)
    exact h

theorem After.layer {t : ℕ → ℕ} {r r' l : Reader} {j : ℕ} (h : After t r r')
    (hl : layer j r = some l) : ∃ l', layer j r' = some l' ∧ After (fun i => t (j + i)) l l' := by
  induction j generalizing t r r' with
  | zero =>
    cases hl
    refine ⟨r', rfl, ?_⟩
    simpa using h
  | succ j ih =>
    have hs : (fun i => t (j + 1 + i)) = fun i => (fun k => t (k + 1)) (j + i) := by
      funext i
      exact congrArg t (by omega)
    rw [hs]
    cases r with
    | slice s => cases hl
    | parseBudget inner remaining maxRep maxMap rep map =>
      cases r' with
      | parseBudget inner' => exact ih h.2 hl
      | slice | limited | ref | staged => exact h.elim
    | limited inner remaining =>
      cases r' with
      | limited inner' => exact ih h.2 hl
      | slice | parseBudget | ref | staged => exact h.elim
    | ref inner =>
      cases r' with
      | ref inner' => exact ih (t := fun k => t (k + 1)) h hl
      | slice | parseBudget | limited | staged => exact h.elim
    | staged s budgetReader =>
      cases r' with
      | staged s' budgetReader' => exact ih h.2 hl
      | slice | parseBudget | limited | ref => exact h.elim

theorem position_eq (r : Reader) : r.position = r.source.position := by
  induction r with
  | slice s | staged s budgetReader _ => rfl
  | parseBudget inner remaining maxRep maxMap rep map ih => exact ih
  | limited inner remaining ih => exact ih
  | ref inner ih => exact ih

theorem After.source {t : ℕ → ℕ} {r r' : Reader} (h : After t r r') :
    Passed r.source r'.source (t r.sliceLayer) := by
  induction r generalizing t r' with
  | slice s =>
    cases r' with
    | slice s' => exact h
    | parseBudget | limited | ref | staged => exact h.elim
  | parseBudget inner remaining maxRep maxMap rep map ih =>
    cases r' with
    | parseBudget inner' => exact ih h.2
    | slice | limited | ref | staged => exact h.elim
  | limited inner remaining ih =>
    cases r' with
    | limited inner' => exact ih h.2
    | slice | parseBudget | ref | staged => exact h.elim
  | ref inner ih =>
    cases r' with
    | ref inner' =>
      have hinner : After (fun k => t (k + 1)) inner inner' := h
      exact ih hinner
    | slice | parseBudget | limited | staged => exact h.elim
  | staged s budgetReader ih =>
    cases r' with
    | staged s' budgetReader' => exact h.1
    | slice | parseBudget | limited | ref => exact h.elim

/-- The checks and the reads of a reader agree. -/
theorem canRead_ok_iff (r : Reader) (n : ℕ) :
    (r.canRead n = .ok () ↔ ∃ bytes r', read n r = .ok bytes r') ∧
      (r.canRead n = .ok () ↔ ∃ r', skip n r = .ok () r') := by
  rw [canRead_eq, read_eq, skip_eq]
  by_cases h : n ≤ r.rest.length
  · simp [h]
  · simp [h]

theorem finish_eq_ok {inner r' : Reader} {remaining n : ℕ}
    (h : Call.finish.perform (limited inner remaining) = .ok n r') : n = remaining := by
  have hx : Exits (Call.finish.perform (limited inner remaining))
      (fun n _ => n = remaining) (fun _ _ => True) := by
    change Exits ((do Reader.skip remaining; return remaining : ReaderM ℕ) _) _ _
    rw [bind_apply, skip_eq]
    by_cases hle : remaining ≤ (limited inner remaining).rest.length
    · simp only [if_pos hle]
      exact rfl
    · simp only [if_neg hle]
      trivial
  exact hx.ok h

private theorem rewrap_eq_ok {wrap : Reader → Reader} {res : EStateM.Result Error Reader ℕ} {n : ℕ}
    {r' : Reader} (h : rewrap wrap res = .ok n r') : ∃ inner, res = .ok n inner := by
  cases res with
  | ok m inner =>
    cases h
    exact ⟨inner, rfl⟩
  | error e inner => cases h

theorem onLayer_eq_ok {x : ReaderM ℕ} {j n : ℕ} {r r' l : Reader} (hl : layer j r = some l)
    (h : onLayer x j r = .ok n r') : ∃ l', x l = .ok n l' := by
  induction j generalizing r r' with
  | zero =>
    cases hl
    exact ⟨r', h⟩
  | succ j ih =>
    cases r with
    | slice s => cases hl
    | parseBudget inner | limited inner | ref inner | staged s inner =>
      obtain ⟨inner', hi⟩ := rewrap_eq_ok h
      exact ih hl hi

theorem reaches_self {j : ℕ} {r l : Reader} (hl : layer j r = some l) :
    r.reaches j j = true := by
  induction j generalizing r with
  | zero => cases r <;> rfl
  | succ j ih =>
    cases r with
    | slice s => cases hl
    | parseBudget inner | limited inner | ref inner | staged s inner => exact ih hl

theorem consumed_append (j : ℕ) (calls last : List (ℕ × Call)) (r : Reader) :
    consumed j (calls ++ last) r = consumed j calls r + consumed j last (run calls r) := by
  induction calls generalizing r with
  | nil => exact (Nat.zero_add _).symm
  | cons call calls ih =>
    have h := ih (r.after call).1
    simp only [List.cons_append, consumed, h, Nat.add_assoc]
    rfl

/-- What a successful `finish` of a layer adds to its count. -/
theorem consumed_finish {calls : List (ℕ × Call)} {j n remaining : ℕ} {r r' inner : Reader}
    (hl : layer j (run calls r) = some (limited inner remaining))
    (h : onLayer Call.finish.perform j (run calls r) = .ok n r') :
    consumed j (calls ++ [(j, .finish)]) r = consumed j calls r + remaining := by
  obtain ⟨l', hf⟩ := onLayer_eq_ok hl h
  rw [consumed_append]
  simp only [consumed, reaches_self hl, if_true, after, h, finish_eq_ok hf, Nat.add_zero]

/-- Whatever calls are made on whichever layers of a stack, the position is the offset of the slice
plus the bytes taken from it, checks and reads agree, a failing call changes nothing, and no layer
lets through more than its length or budget. -/
theorem reader_stack_history (r : Reader) (calls : List (ℕ × Call)) (j : ℕ) (l : Reader)
    (hl : layer j r = some l) : ∃ l', layer j (run calls r) = some l' ∧
      l'.position =
        l.source.baseOffset + (l.source.pos + consumed (j + l.sliceLayer) calls r) ∧
      (∀ n, (l'.canRead n = .ok () ↔ ∃ bytes r', read n l' = .ok bytes r') ∧
        (l'.canRead n = .ok () ↔ ∃ r', skip n l' = .ok () r')) ∧
      (∀ call e r', onLayer (Call.perform call) j (run calls r) = .error e r' →
        r' = run calls r) ∧
      (∀ inner length, l = limited inner length → ∃ inner' remaining,
        l' = limited inner' remaining ∧ remaining + consumed j calls r = length ∧
        ∀ n r', onLayer Call.finish.perform j (run calls r) = .ok n r' →
          consumed j (calls ++ [(j, .finish)]) r = length) ∧
      ∀ inner budget maxRep maxMap rep map, l = parseBudget inner budget maxRep maxMap rep map →
        ∃ inner' remaining maxRep' maxMap' rep' map',
          l' = parseBudget inner' remaining maxRep' maxMap' rep' map' ∧
          remaining + consumed j calls r = budget := by
  obtain ⟨l', hl', ha⟩ := (after_run calls r).layer hl
  refine ⟨l', hl', ?_, canRead_ok_iff l', ?_, ?_, ?_⟩
  · have hs := ha.source
    rw [position_eq, SliceReader.position, hs.baseOffset, hs.pos]
  · intro call e r' he
    exact (onLayer_exits call j _).error he
  · rintro inner length rfl
    cases l' with
    | limited inner' remaining =>
      have hc : remaining + consumed j calls r = length := ha.1
      refine ⟨inner', remaining, rfl, hc, fun n r' hf => ?_⟩
      rw [consumed_finish hl' hf, Nat.add_comm, hc]
    | slice | parseBudget | ref | staged => exact ha.elim
  · rintro inner budget maxRep maxMap rep map rfl
    cases l' with
    | parseBudget inner' remaining maxRep' maxMap' rep' map' =>
      exact ⟨inner', remaining, maxRep', maxMap', rep', map', rfl, ha.1⟩
    | slice | limited | ref | staged => exact ha.elim

/-- Two limits over a slice, the outer one longer than the inner one. -/
theorem reader_stack_history_limited :
    let r := limited (limited (slice { data := [1, 2, 3] }) 2) 5
    ∃ l', layer 1 (run [(0, .read 2), (0, .readByte), (1, .finish)] r) = some l' ∧
      l'.position = 0 + (0 + 2) := by
  obtain ⟨l', hl, hp, -⟩ := reader_stack_history
    (limited (limited (slice { data := [1, 2, 3] }) 2) 5)
    [(0, .read 2), (0, .readByte), (1, .finish)] 1 _ rfl
  exact ⟨l', hl, hp⟩

end Reader
end Protocyte
