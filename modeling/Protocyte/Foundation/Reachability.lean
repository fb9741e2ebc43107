import Protocyte.Foundation.Dictionary
import Mathlib.Data.List.Nodup
import Mathlib.Logic.Relation

/-! Cycles of relations, and a depth-first search for a node of a finite graph. -/
namespace Foundation

open Relation

section Cycles

variable {α : Type} {r s : α → α → Prop} {a b : α}

def Acyclic (r : α → α → Prop) : Prop := ∀ a, ¬TransGen r a a

/-- The edges of `r` that lie on no cycle of `r`. -/
def OffCycle (r : α → α → Prop) (a b : α) : Prop := r a b ∧ ¬ReflTransGen r b a

theorem acyclic_offCycle (r : α → α → Prop) : Acyclic (OffCycle r) := by
  intro a h
  obtain ⟨b, hedge, hpath⟩ := TransGen.head'_iff.mp h
  exact hedge.2 (hpath.lift id fun _ _ h => h.1)

/-- A path of two relations that is not one of the first alone uses the second. -/
theorem transGen_or (h : TransGen (fun a b => r a b ∨ s a b) a b) :
    TransGen r a b ∨ ∃ u v, ReflTransGen (fun a b => r a b ∨ s a b) a u ∧ s u v ∧
      ReflTransGen (fun a b => r a b ∨ s a b) v b := by
  induction h with
  | single hedge =>
    rcases hedge with hr | hs
    · exact .inl (.single hr)
    · exact .inr ⟨_, _, .refl, hs, .refl⟩
  | tail hpath hedge ih =>
    rcases ih with hr | ⟨u, v, hau, huv, hvb⟩
    · rcases hedge with hr' | hs
      · exact .inl (hr.tail hr')
      · exact .inr ⟨_, _, hpath.to_reflTransGen, hs, .refl⟩
    · exact .inr ⟨u, v, hau, huv, hvb.tail hedge⟩

/-- Edges added to an acyclic relation close no cycle when the ends of none of them are joined. -/
theorem acyclic_or_iff (hr : Acyclic r) : Acyclic (fun a b => r a b ∨ s a b) ↔
    ∀ a b, s a b → ¬ReflTransGen (fun a b => r a b ∨ s a b) b a := by
  constructor
  · intro h a b hs hpath
    exact h a (TransGen.head'_iff.mpr ⟨b, .inr hs, hpath⟩)
  · intro h a hcycle
    rcases transGen_or hcycle with hcycle | ⟨u, v, hau, huv, hva⟩
    · exact hr a hcycle
    · exact h u v huv (hva.trans hau)

theorem not_transGen_of_acc (h : Acc (Function.swap r) a) : ¬TransGen r a a := by
  have hacc := h.transGen
  clear h
  induction hacc with
  | intro a _ ih => exact fun hcycle => ih a (transGen_swap.mpr hcycle) hcycle

theorem acc_of_reflTransGen (h : Acc (Function.swap r) a) (hpath : ReflTransGen r a b) :
    Acc (Function.swap r) b := by
  induction hpath with
  | refl => exact h
  | tail _ hedge ih => exact ih.inv hedge

theorem Acyclic.congr (h : ∀ a b, r a b ↔ s a b) : Acyclic r ↔ Acyclic s := by
  have heq : r = s := by
    funext a b
    exact propext (h a b)
  rw [heq]

end Cycles

section Search

variable {α : Type} [DecidableEq α] (graph : Dictionary α (List α)) (goal : α)

def successors (a : α) : List α := (graph.get? a).getD []

def unseen (seen : List α) : ℕ := (graph.keys.filter fun a => a ∉ seen).length

variable {graph}

theorem unseen_cons_le (a : α) (seen : List α) : unseen graph (a :: seen) ≤ unseen graph seen := by
  unfold unseen
  rw [← List.countP_eq_length_filter, ← List.countP_eq_length_filter]
  apply List.countP_mono_left
  intro b _ hb
  simp only [List.mem_cons, not_or, decide_eq_true_eq] at hb ⊢
  exact hb.2

theorem unseen_cons_lt {a : α} {seen : List α} (ha : a ∈ graph.keys) (hnew : a ∉ seen) :
    unseen graph (a :: seen) < unseen graph seen := by
  unfold unseen
  have hsub : (graph.keys.filter fun b => b ∉ a :: seen) =
      (graph.keys.filter fun b => b ∉ seen).filter fun b => b ≠ a := by
    rw [List.filter_filter]
    congr 1
    funext b
    simp
  rw [hsub]
  apply List.length_filter_lt_length_iff_exists.mpr
  exact ⟨a, by simpa using ⟨ha, hnew⟩, by simp⟩

theorem successors_of_notMem {a : α} (h : a ∉ graph.keys) : successors graph a = [] := by
  unfold successors
  rw [Dictionary.get?_eq_none_iff.mpr h]
  rfl

/-- The loop of the search: each step adds a node to those seen, or leaves fewer on the stack. -/
theorem search_decreases (a : α) (stack seen : List α) (hnew : a ∉ seen) :
    Prod.Lex (· < ·) (· < ·)
      (unseen graph (a :: seen), ((successors graph a).reverse ++ stack).length)
      (unseen graph seen, (a :: stack).length) := by
  by_cases ha : a ∈ graph.keys
  · exact .left _ _ (unseen_cons_lt ha hnew)
  · rw [successors_of_notMem ha]
    have hle : unseen graph (a :: seen) ≤ unseen graph seen := unseen_cons_le a seen
    rcases hle.lt_or_eq with hlt | heq
    · exact .left _ _ hlt
    · rw [heq]
      exact .right _ (by simp)

variable (graph)

/-- Whether one of the nodes on the stack leads to the goal. -/
def searchFrom : List α → List α → Bool
  | [], _ => false
  | current :: stack, seen =>
    if current = goal then true
    else if current ∈ seen then searchFrom stack seen
    else searchFrom ((successors graph current).reverse ++ stack) (current :: seen)
termination_by stack seen => (unseen graph seen, stack.length)
decreasing_by
  · exact .right _ (by simp)
  · exact search_decreases _ _ _ (by assumption)

def Adjacent (a b : α) : Prop := b ∈ successors graph a

variable {graph goal}

theorem searchFrom_sound {stack seen : List α} (h : searchFrom graph goal stack seen = true) :
    ∃ a ∈ stack, ReflTransGen (Adjacent graph) a goal := by
  induction stack, seen using searchFrom.induct graph goal with
  | case1 => simp [searchFrom] at h
  | case2 stack seen => exact ⟨goal, List.mem_cons_self, .refl⟩
  | case3 current stack seen hne hseen ih =>
    rw [searchFrom, if_neg hne, if_pos hseen] at h
    obtain ⟨a, ha, hpath⟩ := ih h
    exact ⟨a, List.mem_cons_of_mem _ ha, hpath⟩
  | case4 current stack seen hne hseen ih =>
    rw [searchFrom, if_neg hne, if_neg hseen] at h
    obtain ⟨a, ha, hpath⟩ := ih h
    rcases List.mem_append.mp ha with hsucc | hstack
    · have hedge : Adjacent graph current a := List.mem_reverse.mp hsucc
      exact ⟨current, List.mem_cons_self, .head hedge hpath⟩
    · exact ⟨a, List.mem_cons_of_mem _ hstack, hpath⟩

/-- What is seen, but not the goal, has its successors seen or on the stack. -/
def SearchInvariant (graph : Dictionary α (List α)) (goal : α) (stack seen : List α) : Prop :=
  ∀ a ∈ seen, a ≠ goal ∧ ∀ b, Adjacent graph a b → b ∈ seen ∨ b ∈ stack

theorem searchFrom_complete {stack seen : List α} (h : SearchInvariant graph goal stack seen)
    {a : α} (ha : a ∈ seen ∨ a ∈ stack) (hpath : ReflTransGen (Adjacent graph) a goal) :
    searchFrom graph goal stack seen = true := by
  induction stack, seen using searchFrom.induct graph goal with
  | case1 seen =>
    -- the nodes seen are closed under successors
    have hclosed : ∀ b, ReflTransGen (Adjacent graph) a b → b ∈ seen := by
      intro b hb
      induction hb with
      | refl => simpa using ha
      | tail _ hedge ih => simpa using (h _ ih).2 _ hedge
    exact absurd rfl (h goal (hclosed goal hpath)).1
  | case2 stack seen => rw [searchFrom, if_pos rfl]
  | case3 current stack seen hne hseen ih =>
    rw [searchFrom, if_neg hne, if_pos hseen]
    have hmem : ∀ b, b ∈ seen ∨ b ∈ current :: stack → b ∈ seen ∨ b ∈ stack := by
      intro b hb
      rcases hb with hb | hb
      · exact .inl hb
      · rcases List.mem_cons.mp hb with rfl | hb
        · exact .inl hseen
        · exact .inr hb
    apply ih _ (hmem a ha)
    intro b hb
    exact ⟨(h b hb).1, fun c hc => hmem c ((h b hb).2 c hc)⟩
  | case4 current stack seen hne hseen ih =>
    rw [searchFrom, if_neg hne, if_neg hseen]
    have hmem : ∀ b, b ∈ seen ∨ b ∈ current :: stack →
        b ∈ current :: seen ∨ b ∈ (successors graph current).reverse ++ stack := by
      intro b hb
      rcases hb with hb | hb
      · exact .inl (List.mem_cons_of_mem _ hb)
      · rcases List.mem_cons.mp hb with rfl | hb
        · exact .inl List.mem_cons_self
        · exact .inr (List.mem_append_right _ hb)
    apply ih _ (hmem a ha)
    intro b hb
    rcases List.mem_cons.mp hb with rfl | hb
    · refine ⟨hne, fun c hc => .inr (List.mem_append_left _ ?_)⟩
      exact List.mem_reverse.mpr hc
    · exact ⟨(h b hb).1, fun c hc => hmem c ((h b hb).2 c hc)⟩

def search (graph : Dictionary α (List α)) (start goal : α) : Bool :=
  searchFrom graph goal [start] []

theorem search_iff {start : α} :
    search graph start goal = true ↔ ReflTransGen (Adjacent graph) start goal := by
  constructor
  · intro h
    obtain ⟨a, ha, hpath⟩ := searchFrom_sound h
    rwa [List.mem_singleton.mp ha] at hpath
  · intro h
    apply searchFrom_complete _ (.inr List.mem_cons_self) h
    intro a ha
    exact absurd ha List.not_mem_nil

end Search

end Foundation
