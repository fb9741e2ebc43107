import Protocyte.Foundation.Computation

/-! Two runs of one computation, from a state and from what a function makes of it. They have the
same outcome unless the first one fails with an error of a given kind. -/
namespace Foundation.Computation

variable {ε σ α β : Type} {f : σ → σ} {L : ε → Prop} {x : EStateM ε σ α} {s t : σ}
  {r r' : EStateM.Result ε σ α}

/-- The second outcome is the first one, with `f` of its state. -/
def Agrees (f : σ → σ) (L : ε → Prop) (r r' : EStateM.Result ε σ α) : Prop :=
  Exits r (fun a t => r' = .ok a (f t)) (fun e t => L e ∨ r' = .error e (f t))

/-- The runs from `s` and from `f s` agree. -/
abbrev CommutesAt (f : σ → σ) (L : ε → Prop) (x : EStateM ε σ α) (s : σ) : Prop :=
  Agrees f L (x s) (x (f s))

def Commutes (f : σ → σ) (L : ε → Prop) (x : EStateM ε σ α) : Prop := ∀ s, CommutesAt f L x s

namespace Agrees

theorem pure (a : α) : Agrees f L (.ok a s) (.ok a (f s)) := rfl

theorem throw (e : ε) : Agrees f L (.error e s : EStateM.Result ε σ α) (.error e (f s)) := .inr rfl

theorem ok {a : α} (h : Agrees f L r r') (hr : r = .ok a t) : r' = .ok a (f t) := by
  rw [hr] at h
  exact h

theorem error {e : ε} (h : Agrees f L r r') (hr : r = .error e t) :
    L e ∨ r' = .error e (f t) := by
  rw [hr] at h
  exact h

theorem ite {c : Prop} [Decidable c] {q q' : EStateM.Result ε σ α} (hr : c → Agrees f L r r')
    (hq : ¬c → Agrees f L q q') : Agrees f L (if c then r else q) (if c then r' else q') := by
  split
  · exact hr ‹_›
  · exact hq ‹_›

theorem dite {c : Prop} [Decidable c] {p p' : c → EStateM.Result ε σ α}
    {q q' : ¬c → EStateM.Result ε σ α} (hp : ∀ h, Agrees f L (p h) (p' h))
    (hq : ∀ h, Agrees f L (q h) (q' h)) :
    Agrees f L (if h : c then p h else q h) (if h : c then p' h else q' h) := by
  split
  · exact hp _
  · exact hq _

end Agrees

theorem CommutesAt.bind {g : α → EStateM ε σ β} (hx : CommutesAt f L x s)
    (hg : ∀ a t, x s = .ok a t → CommutesAt f L (g a) t) : CommutesAt f L (x >>= g) s := by
  unfold CommutesAt
  cases h : x s with
  | ok a t =>
    rw [bind_of_ok h, bind_of_ok (hx.ok h)]
    exact hg a t h
  | error e t =>
    rw [bind_of_error h]
    rcases hx.error h with he | hf
    · exact .inl he
    · exact .inr (bind_of_error hf)

namespace Commutes

theorem pure (a : α) : Commutes f L (Pure.pure a : EStateM ε σ α) := fun _ => .pure a

theorem throw (e : ε) : Commutes f L (MonadExcept.throw e : EStateM ε σ α) := fun _ => .throw e

theorem bind {g : α → EStateM ε σ β} (hx : Commutes f L x) (hg : ∀ a, Commutes f L (g a)) :
    Commutes f L (x >>= g) := fun s => (hx s).bind fun a t _ => hg a t

theorem ite {c : Prop} [Decidable c] {y : EStateM ε σ α} (hx : c → Commutes f L x)
    (hy : ¬c → Commutes f L y) : Commutes f L (if c then x else y) := by
  split
  · exact hx ‹_›
  · exact hy ‹_›

/-- What follows may look at the state, but not at what `f` changes. -/
theorem get_bind {g : σ → EStateM ε σ β} (hf : ∀ s, g (f s) = g s)
    (hg : ∀ s, Commutes f L (g s)) : Commutes f L (MonadState.get >>= g) := by
  intro s
  have hrun := hg s s
  unfold CommutesAt at hrun ⊢
  rwa [bind_of_ok (get_apply s), bind_of_ok (get_apply (f s)), hf s]

theorem modifying {g : σ → σ} (hg : ∀ s, g (f s) = f (g s)) :
    Commutes f L (modify g : EStateM ε σ PUnit) := fun s =>
  congrArg (EStateM.Result.ok _) (hg s)

end Commutes

end Foundation.Computation
