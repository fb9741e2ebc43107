import Mathlib.Data.Nat.Notation
import Mathlib.Tactic.Common
import Mathlib.Tactic.Ring

/-! Programs whose writes are durable one by one. A program may be killed before, between and after
its writes; the rules speak about every state it can be killed in and about both exits. -/
namespace Foundation

inductive Program (ε σ α : Type) where
  | done (a : α)
  | fail (e : ε)
  | read (next : σ → Program ε σ α)
  | write (f : σ → σ) (next : Program ε σ α)

namespace Program

variable {ε σ α β : Type}

def bind : Program ε σ α → (α → Program ε σ β) → Program ε σ β
  | .done a, f => f a
  | .fail e, _ => .fail e
  | .read next, f => .read fun s => (next s).bind f
  | .write g next, f => .write g (next.bind f)

instance : Monad (Program ε σ) where
  pure := .done
  bind := Program.bind

def get : Program ε σ σ := .read .done

/-- One durable step. -/
def modify (f : σ → σ) : Program ε σ Unit := .write f (.done ())

def lift : Except ε α → Program ε σ α
  | .ok a => .done a
  | .error e => .fail e

def ensure (c : Prop) [Decidable c] (e : ε) : Program ε σ Unit := if c then .done () else .fail e

/-- `cleanup` runs before the program fails. -/
def onFailure : Program ε σ α → Program ε σ Unit → Program ε σ α
  | .done a, _ => .done a
  | .fail e, cleanup => cleanup.bind fun _ => .fail e
  | .read next, cleanup => .read fun s => (next s).onFailure cleanup
  | .write g next, cleanup => .write g (next.onFailure cleanup)

/-- The program runs for its effects: a failure of it is dropped. -/
def attempt : Program ε σ α → Program ε σ Unit
  | .done _ => .done ()
  | .fail _ => .done ()
  | .read next => .read fun s => (next s).attempt
  | .write g next => .write g next.attempt

/-- The result and the last state of a run that nothing interrupts. -/
def run : Program ε σ α → σ → Except ε α × σ
  | .done a, s => (.ok a, s)
  | .fail e, s => (.error e, s)
  | .read next, s => (next s).run s
  | .write f next, s => next.run (f s)

/-- The states the program can be killed in. -/
def visited : Program ε σ α → σ → List σ
  | .done _, s => [s]
  | .fail _, s => [s]
  | .read next, s => (next s).visited s
  | .write f next, s => s :: next.visited (f s)

/-- The program ends with a result. -/
def Finishes (p : Program ε σ α) (s : σ) (a : α) (t : σ) : Prop := p.run s = (.ok a, t)

/-- The program is killed, or ends in some way. -/
def Stops (p : Program ε σ α) (s t : σ) : Prop := t ∈ p.visited s

/-- `I` holds wherever the program can be killed, `Q` of a result and `E` of an error. -/
def Meets (I : σ → Prop) (Q : α → σ → Prop) (E : ε → σ → Prop) : Program ε σ α → σ → Prop
  | .done a, s => I s ∧ Q a s
  | .fail e, s => I s ∧ E e s
  | .read next, s => (next s).Meets I Q E s
  | .write f next, s => I s ∧ next.Meets I Q E (f s)

@[simp] theorem pure_eq_done (a : α) : (pure a : Program ε σ α) = .done a := rfl

section Execution

@[simp] theorem done_bind (a : α) (f : α → Program ε σ β) : (Program.done a >>= f) = f a := rfl

@[simp] theorem fail_bind (e : ε) (f : α → Program ε σ β) :
    (Program.fail e >>= f) = .fail e := rfl

@[simp] theorem read_bind (next : σ → Program ε σ α) (f : α → Program ε σ β) :
    (Program.read next >>= f) = .read fun s => next s >>= f := rfl

@[simp] theorem write_bind (g : σ → σ) (p : Program ε σ α) (f : α → Program ε σ β) :
    (Program.write g p >>= f) = .write g (p >>= f) := rfl

@[simp] theorem get_bind (f : σ → Program ε σ β) : (get >>= f) = .read f := rfl

@[simp] theorem modify_bind (g : σ → σ) (f : Unit → Program ε σ β) :
    (modify g >>= f) = .write g (f ()) := rfl

variable {I : σ → Prop} {Q : α → σ → Prop} {E : ε → σ → Prop}

@[simp] theorem meets_done (a : α) (s : σ) :
    (Program.done a : Program ε σ α).Meets I Q E s ↔ I s ∧ Q a s := Iff.rfl

@[simp] theorem meets_fail (e : ε) (s : σ) :
    (Program.fail e : Program ε σ α).Meets I Q E s ↔ I s ∧ E e s := Iff.rfl

@[simp] theorem meets_read (next : σ → Program ε σ α) (s : σ) :
    (Program.read next).Meets I Q E s ↔ (next s).Meets I Q E s := Iff.rfl

@[simp] theorem meets_write (g : σ → σ) (p : Program ε σ α) (s : σ) :
    (Program.write g p).Meets I Q E s ↔ I s ∧ p.Meets I Q E (g s) := Iff.rfl

@[simp] theorem meets_modify (g : σ → σ) (s : σ) {Q : Unit → σ → Prop} :
    (modify g : Program ε σ Unit).Meets I Q E s ↔ I s ∧ I (g s) ∧ Q () (g s) := Iff.rfl

end Execution

section Run

/-- A run may be killed just before it starts. -/
theorem start_mem_visited (p : Program ε σ α) (s : σ) : s ∈ p.visited s := by
  induction p generalizing s with
  | done a => exact List.mem_singleton_self s
  | fail e => exact List.mem_singleton_self s
  | read next ih => exact ih s s
  | write g next ih => exact List.mem_cons_self

end Run

section Rules

variable {I I' : σ → Prop} {Q Q' : α → σ → Prop} {R : β → σ → Prop} {E E' : ε → σ → Prop}
variable {p : Program ε σ α} {s : σ}

theorem Meets.stops (h : p.Meets I Q E s) {t : σ} (ht : p.Stops s t) : I t := by
  unfold Stops at ht
  induction p generalizing s with
  | done a =>
    rw [List.mem_singleton.mp ht]
    exact h.1
  | fail e =>
    rw [List.mem_singleton.mp ht]
    exact h.1
  | read next ih => exact ih s h ht
  | write g next ih =>
    cases List.mem_cons.mp ht with
    | inl heq => exact heq ▸ h.1
    | inr hmem => exact ih h.2 hmem

theorem Meets.finishes (h : p.Meets I Q E s) {a : α} {t : σ} (ht : p.Finishes s a t) : Q a t := by
  unfold Finishes at ht
  induction p generalizing s with
  | done b =>
    obtain ⟨hb, rfl⟩ := Prod.mk.inj ht
    rw [← Except.ok.inj hb]
    exact h.2
  | fail e => cases (Prod.mk.inj ht).1
  | read next ih => exact ih s h ht
  | write g next ih => exact ih h.2 ht

/-- A program without a failing exit ends with a result. -/
theorem Meets.total (h : p.Meets I Q (fun _ _ => False) s) : ∃ a t, p.Finishes s a t ∧ Q a t := by
  induction p generalizing s with
  | done a => exact ⟨a, s, rfl, h.2⟩
  | fail e => exact h.2.elim
  | read next ih => exact ih s h
  | write g next ih => exact ih h.2

theorem Meets.mono (h : p.Meets I Q E s) (hI : ∀ t, I t → I' t) (hQ : ∀ a t, Q a t → Q' a t)
    (hE : ∀ e t, E e t → E' e t) : p.Meets I' Q' E' s := by
  induction p generalizing s with
  | done a => exact ⟨hI s h.1, hQ a s h.2⟩
  | fail e => exact ⟨hI s h.1, hE e s h.2⟩
  | read next ih => exact ih s h
  | write g next ih => exact ⟨hI s h.1, ih h.2⟩

theorem Meets.bind {f : α → Program ε σ β} (h : p.Meets I Q E s)
    (hf : ∀ a t, Q a t → (f a).Meets I R E t) : (p >>= f).Meets I R E s := by
  induction p generalizing s with
  | done a => exact hf a s h.2
  | fail e => exact h
  | read next ih => exact ih s h
  | write g next ih => exact ⟨h.1, ih h.2⟩

theorem meets_ite {c : Prop} [Decidable c] {q : Program ε σ α} (hp : c → p.Meets I Q E s)
    (hq : ¬ c → q.Meets I Q E s) : (if c then p else q).Meets I Q E s := by
  split
  · exact hp ‹_›
  · exact hq ‹_›

/-- A loop keeps what its body keeps. -/
theorem meets_forM {ι : Type} {l : List ι} {f : ι → Program ε σ PUnit} {J : σ → Prop}
    (hf : ∀ i ∈ l, ∀ t, J t → (f i).Meets I (fun _ => J) E t) (hJ : ∀ t, J t → I t) (hs : J s) :
    (l.forM f).Meets I (fun _ => J) E s := by
  induction l generalizing s with
  | nil => exact ⟨hJ s hs, hs⟩
  | cons i l ih =>
    apply Meets.bind (hf i List.mem_cons_self s hs)
    intro _ t ht
    exact ih (fun j hj => hf j (List.mem_cons_of_mem i hj)) ht

/-- The exits are states it can be killed in. -/
theorem Meets.exits (h : p.Meets I Q E s) :
    p.Meets I (fun a t => I t ∧ Q a t) (fun e t => I t ∧ E e t) s := by
  induction p generalizing s with
  | done a => exact ⟨h.1, h⟩
  | fail e => exact ⟨h.1, h⟩
  | read next ih => exact ih s h
  | write g next ih => exact ⟨h.1, ih h.2⟩

/-- A failing exit goes through the cleanup. -/
theorem Meets.onFailure {cleanup : Program ε σ Unit} (h : p.Meets I Q E s)
    (hc : ∀ e t, E e t → cleanup.Meets I (fun _ => E' e) E' t) :
    (p.onFailure cleanup).Meets I Q E' s := by
  induction p generalizing s with
  | done a => exact h
  | fail e =>
    have hend := (hc e s h.2).exits.mono (fun _ ht => ht) (fun _ _ ht => ht) fun _ _ ht => ht.2
    exact Meets.bind (f := fun _ => (fail e : Program ε σ α)) hend fun _ t ht => ht
  | read next ih => exact ih s h
  | write g next ih => exact ⟨h.1, ih h.2⟩

theorem Meets.attempt {R : Unit → σ → Prop} (h : p.Meets I Q E s) (hQ : ∀ a t, Q a t → R () t)
    (hE : ∀ e t, E e t → R () t) : p.attempt.Meets I R E' s := by
  induction p generalizing s with
  | done a => exact ⟨h.1, hQ a s h.2⟩
  | fail e => exact ⟨h.1, hE e s h.2⟩
  | read next ih => exact ih s h
  | write g next ih => exact ⟨h.1, ih h.2⟩

theorem Meets.and (h : p.Meets I Q E s) (h' : p.Meets I' Q' E' s) :
    p.Meets (fun t => I t ∧ I' t) (fun a t => Q a t ∧ Q' a t) (fun e t => E e t ∧ E' e t) s := by
  induction p generalizing s with
  | done a => exact ⟨⟨h.1, h'.1⟩, h.2, h'.2⟩
  | fail e => exact ⟨⟨h.1, h'.1⟩, h.2, h'.2⟩
  | read next ih => exact ih s h h'
  | write g next ih => exact ⟨⟨h.1, h'.1⟩, ih h.2 h'.2⟩

end Rules

section Observation

variable {I : σ → Prop} {Q Q' : α → Prop} {E : ε → σ → Prop}
variable {p : Program ε σ α} {f : α → Program ε σ β} {s : σ}

/-- The program only reads, and `Q` holds of its results. -/
def Observes (p : Program ε σ α) (s : σ) (Q : α → Prop) : Prop :=
  p.Meets (· = s) (fun a t => t = s ∧ Q a) (fun _ => (· = s)) s

theorem Observes.bind {R : β → Prop} (h : p.Observes s Q) (hf : ∀ a, Q a → (f a).Observes s R) :
    (p >>= f).Observes s R := by
  refine Meets.bind h fun a t ht => ?_
  rw [ht.1]
  exact hf a ht.2

theorem Observes.mono (h : p.Observes s Q) (hQ : ∀ a, Q a → Q' a) : p.Observes s Q' :=
  Meets.mono h (fun _ ht => ht) (fun a _ ht => ⟨ht.1, hQ a ht.2⟩) fun _ _ ht => ht

end Observation

section Invariance

variable {K : σ → Prop} {p : Program ε σ α} {s : σ}

/-- `K` holds wherever the program can be killed, and after both exits. -/
def Keeps (K : σ → Prop) (p : Program ε σ α) (s : σ) : Prop :=
  p.Meets K (fun _ => K) (fun _ => K) s

theorem keeps_done {a : α} (h : K s) : (done a : Program ε σ α).Keeps K s := ⟨h, h⟩

theorem keeps_fail {e : ε} (h : K s) : (fail e : Program ε σ α).Keeps K s := ⟨h, h⟩

theorem keeps_modify {f : σ → σ} (h : K s) (hf : K (f s)) :
    (modify f : Program ε σ Unit).Keeps K s := ⟨h, hf, hf⟩

theorem Keeps.bind {f : α → Program ε σ β} (h : p.Keeps K s) (hf : ∀ a t, K t → (f a).Keeps K t) :
    (p >>= f).Keeps K s := Meets.bind h hf

theorem Keeps.onFailure {cleanup : Program ε σ Unit} (h : p.Keeps K s)
    (hc : ∀ t, K t → cleanup.Keeps K t) : (p.onFailure cleanup).Keeps K s :=
  Meets.onFailure h fun _ t ht => hc t ht

end Invariance

end Program

end Foundation
