import Mathlib.Data.List.Forall2
import Mathlib.Data.Nat.Notation
import Mathlib.Tactic.Common
import Mathlib.Tactic.Ring

/-! Rules for computations that keep their state when they fail, so that a specification speaks
about both exits. -/
namespace Foundation.Computation

variable {ε σ α β : Type}

theorem bind_apply (x : EStateM ε σ α) (f : α → EStateM ε σ β) (s : σ) :
    (x >>= f) s = match x s with
      | .ok a s' => f a s'
      | .error e s' => .error e s' := rfl

@[simp] theorem pure_apply (a : α) (s : σ) : (pure a : EStateM ε σ α) s = .ok a s := rfl

@[simp] theorem throw_apply (e : ε) (s : σ) : (throw e : EStateM ε σ α) s = .error e s := rfl

@[simp] theorem get_apply (s : σ) : (get : EStateM ε σ σ) s = .ok s s := rfl

@[simp] theorem set_apply (t s : σ) : (set t : EStateM ε σ PUnit) s = .ok ⟨⟩ t := rfl

@[simp] theorem modify_apply (f : σ → σ) (s : σ) :
    (modify f : EStateM ε σ PUnit) s = .ok ⟨⟩ (f s) := rfl

theorem bind_eq_ok {x : EStateM ε σ α} {f : α → EStateM ε σ β} {s s₂ : σ} {b : β} :
    (x >>= f) s = .ok b s₂ ↔ ∃ a s₁, x s = .ok a s₁ ∧ f a s₁ = .ok b s₂ := by
  rw [bind_apply]
  cases h : x s with
  | ok a s₁ => simp
  | error e s₁ => simp

theorem bind_eq_error {x : EStateM ε σ α} {f : α → EStateM ε σ β} {s s₂ : σ} {e : ε} :
    (x >>= f) s = .error e s₂ ↔
      x s = .error e s₂ ∨ ∃ a s₁, x s = .ok a s₁ ∧ f a s₁ = .error e s₂ := by
  rw [bind_apply]
  cases h : x s with
  | ok a s₁ => simp
  | error e s₁ => simp

theorem bind_of_ok {x : EStateM ε σ α} {f : α → EStateM ε σ β} {s s₁ : σ} {a : α}
    (h : x s = .ok a s₁) : (x >>= f) s = f a s₁ := by
  rw [bind_apply, h]

theorem bind_of_error {x : EStateM ε σ α} {f : α → EStateM ε σ β} {s s₁ : σ} {e : ε}
    (h : x s = .error e s₁) : (x >>= f) s = .error e s₁ := by
  rw [bind_apply, h]

theorem except_bind_eq_ok {x : Except ε α} {f : α → Except ε β} {b : β} :
    (x >>= f) = .ok b ↔ ∃ a, x = .ok a ∧ f a = .ok b := by
  cases x with
  | ok a =>
    have hb : (Except.ok a >>= f) = f a := rfl
    simp [hb]
  | error e =>
    have hb : (Except.error e >>= f) = .error e := rfl
    simp [hb]

theorem except_bind_of_ok {x : Except ε α} {f : α → Except ε β} {a : α} (h : x = .ok a) :
    (x >>= f) = f a := by
  rw [h]
  rfl

theorem exists_of_mapM_ok {f : α → Except ε β} {l : List α} {values : List β}
    (hl : l.mapM f = .ok values) {b : β} (hb : b ∈ values) : ∃ a ∈ l, f a = .ok b := by
  induction l generalizing values with
  | nil =>
    cases hl
    cases hb
  | cons a l ih =>
    rw [List.mapM_cons] at hl
    obtain ⟨first, hfirst, htail⟩ := except_bind_eq_ok.mp hl
    obtain ⟨rest, hrest, hvalues⟩ := except_bind_eq_ok.mp htail
    cases hvalues
    rcases List.mem_cons.mp hb with rfl | hb
    · exact ⟨a, List.mem_cons_self, hfirst⟩
    · obtain ⟨c, hc, hvalue⟩ := ih hrest hb
      exact ⟨c, List.mem_cons_of_mem _ hc, hvalue⟩

theorem mapM_eq_ok {f : α → Except ε β} {l : List α} {values : List β} :
    l.mapM f = .ok values ↔ List.Forall₂ (fun a b => f a = .ok b) l values := by
  induction l generalizing values with
  | nil =>
    rw [List.forall₂_nil_left_iff]
    constructor
    · intro h
      cases h
      rfl
    · rintro rfl
      rfl
  | cons a l ih =>
    rw [List.mapM_cons, List.forall₂_cons_left_iff, except_bind_eq_ok]
    constructor
    · intro ⟨first, hfirst, htail⟩
      obtain ⟨rest, hrest, hvalues⟩ := except_bind_eq_ok.mp htail
      cases hvalues
      exact ⟨first, rest, hfirst, ih.mp hrest, rfl⟩
    · rintro ⟨first, rest, hfirst, hrest, rfl⟩
      exact ⟨first, hfirst, except_bind_eq_ok.mpr ⟨rest, ih.mpr hrest, rfl⟩⟩

/-- A loop whose every step appends what its item gives. -/
theorem foldlM_append {f : List β → α → Except ε (List β)} {g : α → List β} {l : List α}
    (h : ∀ a ∈ l, ∀ acc, f acc a = .ok (acc ++ g a)) (acc : List β) :
    l.foldlM f acc = .ok (acc ++ l.flatMap g) := by
  induction l generalizing acc with
  | nil =>
    rw [List.flatMap_nil, List.append_nil]
    rfl
  | cons a l ih =>
    rw [List.foldlM_cons, except_bind_of_ok (h a List.mem_cons_self acc),
      ih fun b hb => h b (List.mem_cons_of_mem _ hb), List.flatMap_cons, List.append_assoc]

/-- A computation that returns, with a result `Q` holds of. -/
def Yields (x : Except ε α) (Q : α → Prop) : Prop := ∃ a, x = .ok a ∧ Q a

namespace Yields

variable {x : Except ε α} {Q Q' : α → Prop} {R : β → Prop} {a : α}

theorem ok (h : Q a) : Yields (.ok a : Except ε α) Q := ⟨a, rfl, h⟩

theorem mono (h : Yields x Q) (hQ : ∀ a, Q a → Q' a) : Yields x Q' := by
  obtain ⟨a, hx, ha⟩ := h
  exact ⟨a, hx, hQ a ha⟩

theorem bind {f : α → Except ε β} (hx : Yields x Q) (hf : ∀ a, Q a → Yields (f a) R) :
    Yields (x >>= f) R := by
  obtain ⟨a, hx, ha⟩ := hx
  obtain ⟨b, hb, hR⟩ := hf a ha
  exact ⟨b, (except_bind_of_ok hx).trans hb, hR⟩

theorem mapM {f : α → Except ε β} {P : α → β → Prop} {l : List α}
    (h : ∀ a ∈ l, Yields (f a) (P a)) : Yields (l.mapM f) (List.Forall₂ P l) := by
  induction l with
  | nil => exact ⟨[], rfl, .nil⟩
  | cons a l ih =>
    rw [List.mapM_cons]
    apply (h a List.mem_cons_self).bind
    intro b hb
    apply (ih fun c hc => h c (List.mem_cons_of_mem _ hc)).bind
    intro rest hrest
    exact ok (.cons hb hrest)

/-- The result that belongs to an item. -/
theorem exists_of_forall₂ {P : α → β → Prop} {l : List α} {values : List β}
    (h : List.Forall₂ P l values) {a : α} (ha : a ∈ l) : ∃ b ∈ values, P a b := by
  induction h with
  | nil => cases ha
  | cons hfirst _ ih =>
    rcases List.mem_cons.mp ha with rfl | ha
    · exact ⟨_, List.mem_cons_self, hfirst⟩
    · obtain ⟨b, hb, hP⟩ := ih ha
      exact ⟨b, List.mem_cons_of_mem _ hb, hP⟩

theorem map_eq_of_forall₂ {γ : Type} {f : α → γ} {g : β → γ} {l : List α} {values : List β}
    (h : List.Forall₂ (fun a b => g b = f a) l values) : values.map g = l.map f := by
  induction h with
  | nil => rfl
  | cons hfirst _ ih => rw [List.map_cons, hfirst, ih, List.map_cons]

/-- The item a result belongs to. -/
theorem exists_of_forall₂' {P : α → β → Prop} {l : List α} {values : List β}
    (h : List.Forall₂ P l values) {b : β} (hb : b ∈ values) : ∃ a ∈ l, P a b := by
  induction h with
  | nil => cases hb
  | cons hfirst _ ih =>
    rcases List.mem_cons.mp hb with rfl | hb
    · exact ⟨_, List.mem_cons_self, hfirst⟩
    · obtain ⟨a, ha, hP⟩ := ih hb
      exact ⟨a, List.mem_cons_of_mem _ ha, hP⟩

end Yields

/-- `Q` holds of the result and state of a success, `E` of the error and state of a failure. -/
def Exits (r : EStateM.Result ε σ α) (Q : α → σ → Prop) (E : ε → σ → Prop) : Prop :=
  match r with
  | .ok a s => Q a s
  | .error e s => E e s

namespace Exits

variable {r : EStateM.Result ε σ α} {x : EStateM ε σ α} {s s' : σ} {a : α} {e : ε}
variable {Q Q' : α → σ → Prop} {R : β → σ → Prop} {E E' : ε → σ → Prop}

theorem ok (h : Exits r Q E) (hr : r = .ok a s) : Q a s := by
  subst hr
  exact h

theorem error (h : Exits r Q E) (hr : r = .error e s) : E e s := by
  subst hr
  exact h

theorem intro (hok : ∀ a s', r = .ok a s' → Q a s') (herr : ∀ e s', r = .error e s' → E e s') :
    Exits r Q E := by
  cases r with
  | ok a s' => exact hok a s' rfl
  | error e s' => exact herr e s' rfl

theorem mono (h : Exits r Q E) (hQ : ∀ a s', Q a s' → Q' a s') (hE : ∀ e s', E e s' → E' e s') :
    Exits r Q' E' :=
  intro (fun a s' hr => hQ a s' (h.ok hr)) (fun e s' hr => hE e s' (h.error hr))

theorem and (h : Exits r Q E) (h' : Exits r Q' E') :
    Exits r (fun a s' => Q a s' ∧ Q' a s') (fun e s' => E e s' ∧ E' e s') :=
  intro (fun _ _ hr => ⟨h.ok hr, h'.ok hr⟩) (fun _ _ hr => ⟨h.error hr, h'.error hr⟩)

theorem bind {f : α → EStateM ε σ β} (hx : Exits (x s) Q E)
    (hf : ∀ a s', Q a s' → Exits (f a s') R E) : Exits ((x >>= f) s) R E := by
  rw [bind_apply]
  cases h : x s with
  | ok a s' => exact hf a s' (hx.ok h)
  | error e s' => exact hx.error h

theorem ite {c : Prop} [Decidable c] {y : EStateM ε σ α} (hx : c → Exits (x s) Q E)
    (hy : ¬ c → Exits (y s) Q E) : Exits ((if c then x else y) s) Q E := by
  split
  · exact hx ‹_›
  · exact hy ‹_›

instance [∀ a s, Decidable (Q a s)] [∀ e s, Decidable (E e s)] : Decidable (Exits r Q E) :=
  match r with
  | .ok a s => inferInstanceAs (Decidable (Q a s))
  | .error e s => inferInstanceAs (Decidable (E e s))

end Exits

theorem stateT_bind_eq_ok {x : StateT σ (Except ε) α} {f : α → StateT σ (Except ε) β} {s t : σ}
    {b : β} :
    (x >>= f) s = .ok (b, t) ↔ ∃ a u, x s = .ok (a, u) ∧ f a u = .ok (b, t) := by
  have hbind : (x >>= f) s = (x s >>= fun p => f p.1 p.2) := rfl
  rw [hbind, except_bind_eq_ok]
  constructor
  · rintro ⟨p, hx, hf⟩
    exact ⟨p.1, p.2, hx, hf⟩
  · rintro ⟨a, u, hx, hf⟩
    exact ⟨(a, u), hx, hf⟩

theorem stateT_lift_eq_ok {x : Except ε α} {s t : σ} {a : α} :
    (StateT.lift x : StateT σ (Except ε) α) s = .ok (a, t) ↔ x = .ok a ∧ s = t := by
  cases x with
  | error e =>
    constructor
    · intro h
      cases h
    · rintro ⟨h, -⟩
      cases h
  | ok b =>
    constructor
    · intro h
      obtain ⟨rfl, rfl⟩ := Prod.mk.inj (Except.ok.inj h)
      exact ⟨rfl, rfl⟩
    · rintro ⟨h, rfl⟩
      rw [h]
      rfl

/-- A run that keeps no state when it fails gives a result of one kind or an error of another. -/
def Ends (x : Except ε (α × σ)) (Q : α → σ → Prop) (E : ε → Prop) : Prop :=
  match x with
  | .ok (a, s) => Q a s
  | .error e => E e

namespace Ends

variable {Q : α → σ → Prop} {R : β → σ → Prop} {E : ε → Prop} {s : σ}

theorem of_ok {x : Except ε (α × σ)} {a : α} (h : x = .ok (a, s)) (hQ : Q a s) : Ends x Q E := by
  rw [h]
  exact hQ

theorem of_error {x : Except ε (α × σ)} {e : ε} (h : x = .error e) (hE : E e) : Ends x Q E := by
  rw [h]
  exact hE

theorem mono {x : Except ε (α × σ)} {Q' : α → σ → Prop} (h : Ends x Q E)
    (hQ : ∀ a t, x = .ok (a, t) → Q a t → Q' a t) : Ends x Q' E := by
  cases x with
  | ok p => exact hQ p.1 p.2 rfl h
  | error e => exact h

theorem bind {x : StateT σ (Except ε) α} {f : α → StateT σ (Except ε) β} (hx : Ends (x s) Q E)
    (hf : ∀ a t, Q a t → Ends (f a t) R E) : Ends ((x >>= f) s) R E := by
  have hbind : (x >>= f) s = (x s >>= fun p => f p.1 p.2) := rfl
  rw [hbind]
  cases h : x s with
  | ok p =>
    rw [h] at hx
    exact hf p.1 p.2 hx
  | error e =>
    rw [h] at hx
    exact hx

theorem forM {f : α → StateT σ (Except ε) PUnit} {inv : σ → Prop} (l : List α)
    (hf : ∀ a ∈ l, ∀ s, inv s → Ends (f a s) (fun _ => inv) E) :
    ∀ s, inv s → Ends (l.forM f s) (fun _ => inv) E := by
  induction l with
  | nil => exact fun s hs => hs
  | cons a l ih =>
    intro s hs
    exact (hf a List.mem_cons_self s hs).bind fun _ t ht =>
      ih (fun b hb => hf b (List.mem_cons_of_mem a hb)) t ht

end Ends

end Foundation.Computation
