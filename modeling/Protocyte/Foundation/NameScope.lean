import Mathlib.Order.Filter.AtTopBot.Basic
import Mathlib.Data.List.Pairwise
import Mathlib.Tactic.Common

/-! Scopes of names. Every name of a scope is valid, and one name serves two uses only where these
uses may share it. A family of additions that stays clear of each single name is admitted at
some index, so a search through it ends. -/
namespace Foundation

variable {Name Use : Type}

/-- Two entries of a scope that can stand side by side. -/
def Compatible (shares : Use → Use → Prop) (a b : Name × Use) : Prop :=
  a.1 = b.1 → shares a.2 b.2

structure NameScope (valid : Name → Prop) (shares : Use → Use → Prop) where
  uses : List (Name × Use)
  valid_of_mem : ∀ u ∈ uses, valid u.1
  compatible : uses.Pairwise (Compatible shares)

namespace NameScope

variable {valid : Name → Prop} {shares : Use → Use → Prop}

def empty : NameScope valid shares := ⟨[], by simp, List.Pairwise.nil⟩

structure Admits (s : NameScope valid shares) (additions : List (Name × Use)) : Prop where
  valid_of_mem : ∀ u ∈ additions, valid u.1
  compatible : additions.Pairwise (Compatible shares)
  apart : ∀ v ∈ s.uses, ∀ u ∈ additions, Compatible shares v u

variable {s : NameScope valid shares} {additions : List (Name × Use)}

theorem Admits.valid_append (h : s.Admits additions) : ∀ u ∈ s.uses ++ additions, valid u.1 := by
  intro u hu
  rcases List.mem_append.mp hu with hold | hnew
  · exact s.valid_of_mem u hold
  · exact h.valid_of_mem u hnew

theorem Admits.compatible_append (h : s.Admits additions) :
    (s.uses ++ additions).Pairwise (Compatible shares) :=
  List.pairwise_append.mpr ⟨s.compatible, h.compatible, h.apart⟩

def add (s : NameScope valid shares) (additions : List (Name × Use)) (h : s.Admits additions) :
    NameScope valid shares :=
  ⟨s.uses ++ additions, h.valid_append, h.compatible_append⟩

@[simp] theorem uses_empty : (empty : NameScope valid shares).uses = [] := rfl

@[simp] theorem uses_add (h : s.Admits additions) :
    (s.add additions h).uses = s.uses ++ additions := rfl

/-- Additions under names the scope does not use only have to get along with each other. -/
theorem admits_of_unused (hvalid : ∀ u ∈ additions, valid u.1)
    (hcompatible : additions.Pairwise (Compatible shares))
    (hunused : ∀ v ∈ s.uses, ∀ u ∈ additions, u.1 ≠ v.1) : s.Admits additions where
  valid_of_mem := hvalid
  compatible := hcompatible
  apart := fun v hv u hu heq => absurd heq.symm (hunused v hv u hu)

theorem exists_admits (s : NameScope valid shares) (additions : ℕ → List (Name × Use))
    (hvalid : ∀ᶠ k in Filter.atTop, ∀ u ∈ additions k, valid u.1)
    (hcompatible : ∀ᶠ k in Filter.atTop, (additions k).Pairwise (Compatible shares))
    (hunused : ∀ name, ∀ᶠ k in Filter.atTop, ∀ u ∈ additions k, u.1 ≠ name) :
    ∃ k, s.Admits (additions k) := by
  have hclear : ∀ uses : List (Name × Use),
      ∀ᶠ k in Filter.atTop, ∀ v ∈ uses, ∀ u ∈ additions k, u.1 ≠ v.1 := by
    intro uses
    induction uses with
    | nil => exact Filter.Eventually.of_forall (by simp)
    | cons v uses ih =>
      filter_upwards [hunused v.1, ih] with k hv huses
      exact List.forall_mem_cons.mpr ⟨hv, huses⟩
  obtain ⟨k, hk⟩ := ((hvalid.and hcompatible).and (hclear s.uses)).exists
  exact ⟨k, admits_of_unused hk.1.1 hk.1.2 hk.2⟩

end NameScope

end Foundation
