import Protocyte.Foundation.Computation

/-! Computations that look names up in an environment they do not know. One computation runs
against a fixed environment or against a stateful one, and the rules relate the two runs. -/
namespace Foundation

open Computation

inductive Query (ε ι V α : Type) where
  | done (a : α)
  | fail (e : ε)
  | ask (name : ι) (next : V → Query ε ι V α)

namespace Query

variable {ε ι V α β σ : Type}

def bind : Query ε ι V α → (α → Query ε ι V β) → Query ε ι V β
  | .done a, f => f a
  | .fail e, _ => .fail e
  | .ask name next, f => .ask name fun v => (next v).bind f

instance : Monad (Query ε ι V) where
  pure := .done
  bind := Query.bind

def lift : Except ε α → Query ε ι V α
  | .ok a => .done a
  | .error e => .fail e

def lookup (name : ι) : Query ε ι V V := .ask name .done

/-- The result in a fixed environment. -/
def eval (env : ι → Except ε V) : Query ε ι V α → Except ε α
  | .done a => .ok a
  | .fail e => .error e
  | .ask name next =>
    match env name with
    | .ok v => (next v).eval env
    | .error e => .error e

/-- The result when every answer may change the state and depend on the answers before it. The run
stops at `pause` before each question and at the end. -/
def run (answer : List V → ι → StateT σ (Except ε) V) (pause : List V → StateT σ (Except ε) Unit) :
    Query ε ι V α → List V → StateT σ (Except ε) α
  | .done a, answers => do
    pause answers
    return a
  | .fail e, answers => do
    pause answers
    throw e
  | .ask name next, answers => do
    pause answers
    let v ← answer answers name
    (next v).run answer pause (answers ++ [v])

/-- The names looked up in a fixed environment, in order. -/
def asked (env : ι → Except ε V) : Query ε ι V α → List ι
  | .done _ => []
  | .fail _ => []
  | .ask name next =>
    match env name with
    | .ok v => name :: (next v).asked env
    | .error _ => [name]

@[simp] theorem pure_eq_done (a : α) : (pure a : Query ε ι V α) = .done a := rfl

theorem done_bind (a : α) (f : α → Query ε ι V β) : (Query.done a >>= f) = f a := rfl

theorem fail_bind (e : ε) (f : α → Query ε ι V β) : (Query.fail e >>= f) = .fail e := rfl

theorem ask_bind (name : ι) (next : V → Query ε ι V α) (f : α → Query ε ι V β) :
    (Query.ask name next >>= f) = .ask name fun v => next v >>= f := rfl

theorem eval_ask (env : ι → Except ε V) (name : ι) (next : V → Query ε ι V α) :
    (Query.ask name next).eval env = (env name >>= fun v => (next v).eval env) := by
  rw [eval]
  cases env name <;> rfl

@[simp] theorem eval_bind (env : ι → Except ε V) (x : Query ε ι V α) (f : α → Query ε ι V β) :
    (x >>= f).eval env = (x.eval env >>= fun a => (f a).eval env) := by
  induction x with
  | done a => rfl
  | fail e => rfl
  | ask name next ih =>
    rw [ask_bind, eval_ask, eval_ask]
    cases env name with
    | ok v => exact ih v
    | error e => rfl

section Pause

variable {answer : List V → ι → StateT σ (Except ε) V} {pause : List V → StateT σ (Except ε) Unit}

theorem run_done_eq_ok {answers : List V} {s t : σ} {a b : α} :
    (Query.done a : Query ε ι V α).run answer pause answers s = .ok (b, t) ↔
      pause answers s = .ok ((), t) ∧ a = b := by
  have hrun : (Query.done a : Query ε ι V α).run answer pause answers s
      = (pause answers s >>= fun p => .ok (a, p.2)) := rfl
  rw [hrun]
  cases h : pause answers s with
  | ok p => simp [Bind.bind, Except.bind, Prod.ext_iff, and_comm]
  | error e => simp [Bind.bind, Except.bind]

theorem run_fail_ne_ok {answers : List V} {s t : σ} {e : ε} {a : α} :
    (Query.fail e : Query ε ι V α).run answer pause answers s ≠ .ok (a, t) := by
  have hrun : (Query.fail e : Query ε ι V α).run answer pause answers s
      = (pause answers s >>= fun _ => .error e) := rfl
  rw [hrun]
  cases h : pause answers s with
  | ok p => simp [Bind.bind, Except.bind]
  | error e => simp [Bind.bind, Except.bind]

theorem run_ask_eq_ok {answers : List V} {name : ι} {next : V → Query ε ι V α} {s t : σ} {a : α} :
    (Query.ask name next).run answer pause answers s = .ok (a, t) ↔
      ∃ s' v u, pause answers s = .ok ((), s') ∧ answer answers name s' = .ok (v, u) ∧
        (next v).run answer pause (answers ++ [v]) u = .ok (a, t) := by
  have hrun : (Query.ask name next).run answer pause answers s
      = (pause answers s >>= fun p => answer answers name p.2 >>= fun q =>
          (next q.1).run answer pause (answers ++ [q.1]) q.2) := rfl
  rw [hrun]
  cases h : pause answers s with
  | error e => simp [Bind.bind, Except.bind]
  | ok p =>
    cases hanswer : answer answers name p.2 with
    | error e => simp [Bind.bind, Except.bind, hanswer, Prod.ext_iff]
    | ok q => simp [Bind.bind, Except.bind, hanswer, Prod.ext_iff]

end Pause

theorem asked_ask_ok {env : ι → Except ε V} {name : ι} {v : V} (h : env name = .ok v)
    (next : V → Query ε ι V α) :
    (Query.ask name next).asked env = name :: (next v).asked env := by
  rw [asked, h]

theorem asked_ask_error {env : ι → Except ε V} {name : ι} {e : ε} (h : env name = .error e)
    (next : V → Query ε ι V α) : (Query.ask name next).asked env = [name] := by
  rw [asked, h]

theorem asked_bind (env : ι → Except ε V) (x : Query ε ι V α) (f : α → Query ε ι V β) :
    (x >>= f).asked env = x.asked env ++
      match x.eval env with
      | .ok a => (f a).asked env
      | .error _ => [] := by
  induction x with
  | done a => rfl
  | fail e => rfl
  | ask name next ih =>
    rw [ask_bind, eval_ask]
    cases h : env name with
    | ok v =>
      rw [asked_ask_ok h, asked_ask_ok h, ih v, List.cons_append]
      rfl
    | error e =>
      rw [asked_ask_error h, asked_ask_error h]
      rfl

/-- A result depends on the environment at the names it asks for. -/
theorem eval_congr {env env' : ι → Except ε V} {x : Query ε ι V α}
    (h : ∀ name ∈ x.asked env, env' name = env name) : x.eval env' = x.eval env := by
  induction x with
  | done a => rfl
  | fail e => rfl
  | ask name next ih =>
    rw [eval_ask, eval_ask]
    cases hname : env name with
    | error e =>
      rw [asked_ask_error hname] at h
      rw [h name List.mem_cons_self, hname]
      rfl
    | ok v =>
      rw [asked_ask_ok hname] at h
      rw [h name List.mem_cons_self, hname]
      exact ih v fun other hother => h other (List.mem_cons_of_mem name hother)

/-- A result does not change when more names get a value. -/
theorem eval_mono {env env' : ι → Except ε V} (hle : ∀ name v, env name = .ok v → env' name = .ok v)
    {x : Query ε ι V α} {a : α} (h : x.eval env = .ok a) :
    x.eval env' = .ok a ∧ x.asked env' = x.asked env := by
  induction x with
  | done b => exact ⟨h, rfl⟩
  | fail e => cases h
  | ask name next ih =>
    rw [eval_ask] at h ⊢
    cases hname : env name with
    | error e =>
      rw [hname] at h
      cases h
    | ok v =>
      rw [hname] at h
      obtain ⟨heval, hasked⟩ := ih v h
      have hname' := hle name v hname
      constructor
      · rw [hname']
        exact heval
      · rw [asked_ask_ok hname, asked_ask_ok hname', hasked]

section Agreement

variable {answer : List V → ι → StateT σ (Except ε) V} {pause : List V → StateT σ (Except ε) Unit}

/-- Answers that no later state revises are answers of the environment a late enough state
describes: the stateful run computes what that environment gives, and what each answer leaves
behind is still there at the end. -/
theorem eval_of_run (le : σ → σ → Prop) (env : σ → ι → Except ε V) (post : ι → σ → Prop)
    (inv : σ → Prop) (hrefl : ∀ s, le s s) (htrans : ∀ s t u, le s t → le t u → le s u)
    (hpost : ∀ name s t, post name s → le s t → post name t)
    (hpause : ∀ answers s t, pause answers s = .ok ((), t) → t = s)
    (hanswer : ∀ answers name s v t, inv s → answer answers name s = .ok (v, t) →
      inv t ∧ le s t ∧ post name t ∧ ∀ u, le t u → env u name = .ok v) :
    ∀ (x : Query ε ι V α) {answers : List V} {s t : σ} {a : α}, inv s →
      x.run answer pause answers s = .ok (a, t) →
      inv t ∧ le s t ∧ (∀ name ∈ x.asked (env t), post name t) ∧
        ∀ u, le t u → x.eval (env u) = .ok a := by
  intro x
  induction x with
  | done b =>
    intro answers s t a hs h
    obtain ⟨hstop, rfl⟩ := run_done_eq_ok.mp h
    rw [hpause answers s t hstop]
    exact ⟨hs, hrefl s, by simp [asked], fun u _ => rfl⟩
  | fail e =>
    intro answers s t a hs h
    exact absurd h run_fail_ne_ok
  | ask name next ih =>
    intro answers s t a hs h
    obtain ⟨s', v, u, hstop, hu, ht⟩ := run_ask_eq_ok.mp h
    rw [hpause answers s s' hstop] at hu
    obtain ⟨hinv, hsu, hname, henv⟩ := hanswer answers name s v u hs hu
    obtain ⟨hinv', hut, hasked, heval⟩ := ih v hinv ht
    refine ⟨hinv', htrans _ _ _ hsu hut, ?_, ?_⟩
    · rw [asked_ask_ok (henv t hut)]
      intro other hother
      cases List.mem_cons.mp hother with
      | inl heq => exact heq ▸ hpost name u t hname hut
      | inr hmem => exact hasked other hmem
    · intro w hw
      rw [eval_ask, henv w (htrans _ _ _ hut hw)]
      exact heval w hw

/-- A stateful run gives the result the environment gives, or stops with an error of a kind, if
every pause and every name it asks for does. -/
theorem run_ends (inv : σ → Prop) (stops : ε → Prop) {env : ι → Except ε V}
    (hpause : ∀ answers s, inv s → Ends (pause answers s) (fun _ => inv) stops) :
    ∀ (x : Query ε ι V α) {answers : List V} {s : σ} {a : α}, inv s → x.eval env = .ok a →
      (∀ name ∈ x.asked env, ∀ answers s v, inv s → env name = .ok v →
        Ends (answer answers name s) (fun w t => w = v ∧ inv t) stops) →
      Ends (x.run answer pause answers s) (fun b t => b = a ∧ inv t) stops := by
  intro x
  induction x with
  | done b =>
    intro answers s a hs h _
    exact (hpause answers s hs).bind fun _ t ht => ⟨Except.ok.inj h, ht⟩
  | fail e =>
    intro answers s a hs h _
    cases h
  | ask name next ih =>
    intro answers s a hs h hanswer
    rw [eval_ask] at h
    cases hname : env name with
    | error e =>
      rw [hname] at h
      cases h
    | ok v =>
      rw [hname] at h
      rw [asked_ask_ok hname] at hanswer
      refine (hpause answers s hs).bind fun _ t ht => ?_
      refine (hanswer name List.mem_cons_self answers t v ht hname).bind fun w u hw => ?_
      rw [hw.1]
      exact ih v hw.2 h fun other hother => hanswer other (List.mem_cons_of_mem _ hother)

end Agreement

end Query

end Foundation
