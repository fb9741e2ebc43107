import Mathlib.Logic.Relation
import Mathlib.Order.Bounds.Basic
import Mathlib.Data.List.Basic
import Mathlib.Data.Set.Basic

/-! Work lists: a loop that takes nodes off a list of pending ones and adds what they lead to, unless
a node met before covers it, ends with all that can be reached. -/
namespace Foundation

open Relation

section Reached

variable {α : Type} {start : α → Prop} {r : α → α → Prop} {a b : α}

def Reached (start : α → Prop) (r : α → α → Prop) (b : α) : Prop :=
  ∃ a, start a ∧ ReflTransGen r a b

theorem Reached.of_start (h : start a) : Reached start r a := ⟨a, h, .refl⟩

theorem Reached.step (h : Reached start r a) (hedge : r a b) : Reached start r b := by
  obtain ⟨root, hroot, hpath⟩ := h
  exact ⟨root, hroot, hpath.tail hedge⟩

theorem Reached.induct {motive : α → Prop} (h : Reached start r b) (hstart : ∀ a, start a → motive a)
    (hstep : ∀ a b, Reached start r a → r a b → motive a → motive b) : motive b := by
  obtain ⟨root, hroot, hpath⟩ := h
  induction hpath with
  | refl => exact hstart root hroot
  | tail hpath hedge ih => exact hstep _ _ ⟨root, hroot, hpath⟩ hedge ih

/-- What can be reached is the least set that holds the start and is closed. -/
theorem isLeast_reached (start : α → Prop) (r : α → α → Prop) :
    IsLeast {S : Set α | (∀ a, start a → a ∈ S) ∧ ∀ a ∈ S, ∀ b, r a b → b ∈ S}
      {b | Reached start r b} := by
  constructor
  · exact ⟨fun a ha => .of_start ha, fun a ha b hedge => Reached.step ha hedge⟩
  · intro S hS b hb
    exact hb.induct hS.1 fun a b _ hedge ha => hS.2 a ha b hedge

end Reached

section Frontier

variable {α : Type} {start : α → Prop} {r covers : α → α → Prop} {visited pending : List α} {a : α}

/-- What follows from a node follows from any node that covers it. -/
structure Covering (covers r : α → α → Prop) : Prop where
  refl : ∀ a, covers a a
  trans : ∀ a b c, covers a b → covers b c → covers a c
  mono : ∀ a b c, covers a b → r a c → r b c

theorem Covering.eq (r : α → α → Prop) : Covering (fun a b => a = b) r :=
  ⟨fun _ => rfl, fun _ _ _ => Eq.trans, fun _ _ _ h hedge => h ▸ hedge⟩

def Covered (covers : α → α → Prop) (nodes : List α) (a : α) : Prop := ∃ b ∈ nodes, covers a b

theorem Covered.mono {nodes nodes' : List α} (h : Covered covers nodes a)
    (hsub : ∀ b ∈ nodes, b ∈ nodes') : Covered covers nodes' a := by
  obtain ⟨b, hb, hcovers⟩ := h
  exact ⟨b, hsub b hb, hcovers⟩

/-- Between two turns of the loop: what was visited leads only to nodes that are covered. -/
structure Frontier (start : α → Prop) (r covers : α → α → Prop) (visited pending : List α) :
    Prop where
  started : ∀ a, start a → Covered covers (visited ++ pending) a
  sound : ∀ a ∈ visited ++ pending, Reached start r a
  closed : ∀ a ∈ visited, ∀ b, r a b → Covered covers (visited ++ pending) b

theorem Frontier.initial (hrefl : ∀ a, covers a a) (hpending : ∀ a, a ∈ pending ↔ start a) :
    Frontier start r covers [] pending := by
  refine ⟨fun a ha => ⟨a, (hpending a).mpr ha, hrefl a⟩, ?_, by simp⟩
  intro a ha
  exact .of_start ((hpending a).mp ha)

theorem Frontier.skip (h : Frontier start r covers visited (a :: pending)) (ha : a ∈ visited) :
    Frontier start r covers visited pending := by
  have hsub : ∀ b ∈ visited ++ a :: pending, b ∈ visited ++ pending := by
    intro b hb
    rcases List.mem_append.mp hb with hb | hb
    · exact List.mem_append_left _ hb
    · rcases List.mem_cons.mp hb with rfl | hb
      · exact List.mem_append_left _ ha
      · exact List.mem_append_right _ hb
  refine ⟨fun b hb => (h.started b hb).mono hsub, ?_, fun b hb c hc => (h.closed b hb c hc).mono hsub⟩
  intro b hb
  apply h.sound
  rcases List.mem_append.mp hb with hb | hb
  · exact List.mem_append_left _ hb
  · exact List.mem_append_right _ (List.mem_cons_of_mem _ hb)

/-- The node on top is visited: `new` are the nodes it adds, and they cover what it leads to. -/
theorem Frontier.visit (new : List α) {pending' : List α}
    (h : Frontier start r covers visited (a :: pending)) (hnew : ∀ b ∈ new, r a b)
    (hpending : ∀ b, b ∈ pending' ↔ b ∈ new ∨ b ∈ pending)
    (hall : ∀ b, r a b → Covered covers (a :: visited ++ pending') b) :
    Frontier start r covers (a :: visited) pending' := by
  have hsub : ∀ b ∈ visited ++ a :: pending, b ∈ a :: visited ++ pending' := by
    intro b hb
    simp only [List.mem_append, List.mem_cons, hpending] at hb ⊢
    tauto
  refine ⟨fun b hb => (h.started b hb).mono hsub, ?_, ?_⟩
  · intro b hb
    have htop : Reached start r a := h.sound a (by simp)
    simp only [List.mem_append, List.mem_cons, hpending] at hb
    rcases hb with (rfl | hb) | hb | hb
    · exact htop
    · exact h.sound b (List.mem_append_left _ hb)
    · exact htop.step (hnew b hb)
    · exact h.sound b (List.mem_append_right _ (List.mem_cons_of_mem _ hb))
  · intro b hb c hedge
    rcases List.mem_cons.mp hb with rfl | hb
    · exact hall c hedge
    · exact (h.closed b hb c hedge).mono hsub

theorem Frontier.covered_iff (h : Frontier start r covers visited []) (hcovers : Covering covers r)
    (b : α) : Covered covers visited b ↔ ∃ a, Reached start r a ∧ covers b a := by
  obtain ⟨hstart, hsound, hclosed⟩ := h
  simp only [List.append_nil] at hstart hsound hclosed
  constructor
  · intro ⟨a, ha, hba⟩
    exact ⟨a, hsound a ha, hba⟩
  · intro ⟨a, ha, hba⟩
    have hcovered : Covered covers visited a := by
      apply ha.induct hstart
      intro a c _ hedge hcover
      obtain ⟨v, hv, hav⟩ := hcover
      exact hclosed v hv c (hcovers.mono a v c hav hedge)
    obtain ⟨v, hv, hav⟩ := hcovered
    exact ⟨v, hv, hcovers.trans b a v hba hav⟩

/-- Where nodes cover only themselves, the nodes visited are those that can be reached. -/
theorem Frontier.mem_iff (h : Frontier start r (fun a b => a = b) visited []) (b : α) :
    b ∈ visited ↔ Reached start r b := by
  have hiff := h.covered_iff (Covering.eq r) b
  unfold Covered at hiff
  simpa using hiff

end Frontier

section Remaining

variable {α : Type} [DecidableEq α] (nodes : List α)

/-- The nodes that were not met. -/
def remaining (seen : List α) : ℕ := (nodes.filter fun a => a ∉ seen).length

variable {nodes} {a : α} {seen : List α}

theorem remaining_cons_lt (ha : a ∈ nodes) (hnew : a ∉ seen) :
    remaining nodes (a :: seen) < remaining nodes seen := by
  unfold remaining
  have hsub : (nodes.filter fun b => b ∉ a :: seen) =
      (nodes.filter fun b => b ∉ seen).filter fun b => b ≠ a := by
    rw [List.filter_filter]
    congr 1
    funext b
    simp
  rw [hsub]
  apply List.length_filter_lt_length_iff_exists.mpr
  exact ⟨a, by simpa using ⟨ha, hnew⟩, by simp⟩

theorem remaining_cons_le (a : α) (seen : List α) :
    remaining nodes (a :: seen) ≤ remaining nodes seen := by
  unfold remaining
  rw [← List.countP_eq_length_filter, ← List.countP_eq_length_filter]
  apply List.countP_mono_left
  intro b _ hb
  simp only [List.mem_cons, not_or, decide_eq_true_eq] at hb ⊢
  exact hb.2

theorem remaining_congr {seen' : List α} (h : ∀ a, a ∈ seen ↔ a ∈ seen') :
    remaining nodes seen = remaining nodes seen' := by
  unfold remaining
  congr 1
  apply List.filter_congr
  intro a _
  exact decide_eq_decide.mpr (not_congr (h a))

end Remaining

section Sweeps

variable {α β : Type} [DecidableEq α] (key : β → α) (fires : List α → β → Bool) (items : List β)

/-- What was found, and whether the sweep found any of it. -/
def visitItem (state : List α × Bool) (item : β) : List α × Bool :=
  if key item ∉ state.1 ∧ fires state.1 item = true then (key item :: state.1, true) else state

def sweep (found : List α) : List α × Bool := items.foldl (visitItem key fires) (found, false)

variable {key fires items}

theorem foldl_visitItem_true (found : List α) :
    (items.foldl (visitItem key fires) (found, true)).2 = true := by
  induction items generalizing found with
  | nil => rfl
  | cons item items ih =>
    rw [List.foldl_cons, visitItem]
    split_ifs
    · exact ih _
    · exact ih _

/-- A sweep that finds nothing leaves nothing to be found. -/
theorem sweep_unchanged {found : List α} (h : (sweep key fires items found).2 = false) :
    (sweep key fires items found).1 = found ∧
      ∀ item ∈ items, fires found item = true → key item ∈ found := by
  unfold sweep at h ⊢
  induction items with
  | nil => simp
  | cons item items ih =>
    rw [List.foldl_cons, visitItem] at h ⊢
    split_ifs at h ⊢ with hfires
    · rw [foldl_visitItem_true] at h
      exact absurd h (by simp)
    · obtain ⟨heq, hall⟩ := ih h
      refine ⟨heq, List.forall_mem_cons.mpr ⟨fun hitem => ?_, hall⟩⟩
      by_contra hnew
      exact hfires ⟨hnew, hitem⟩

theorem remaining_foldl_visitItem (nodes : List α) (state : List α × Bool)
    (hnodes : ∀ item ∈ items, key item ∈ nodes) :
    remaining nodes (items.foldl (visitItem key fires) state).1 ≤ remaining nodes state.1 ∧
      (state.2 = false → (items.foldl (visitItem key fires) state).2 = true →
        remaining nodes (items.foldl (visitItem key fires) state).1 < remaining nodes state.1) := by
  induction items generalizing state with
  | nil => simp
  | cons item items ih =>
    rw [List.forall_mem_cons] at hnodes
    rw [List.foldl_cons, visitItem]
    split_ifs with hfires
    · have hlt := remaining_cons_lt hnodes.1 hfires.1
      obtain ⟨hle, -⟩ := ih (key item :: state.1, true) hnodes.2
      exact ⟨hle.trans hlt.le, fun _ _ => hle.trans_lt hlt⟩
    · exact ih state hnodes.2

theorem remaining_sweep_lt {found : List α} (h : (sweep key fires items found).2 = true) :
    remaining (items.map key) (sweep key fires items found).1 <
      remaining (items.map key) found :=
  (remaining_foldl_visitItem (items.map key) (found, false)
    fun _ hitem => List.mem_map_of_mem hitem).2 rfl h

variable (key fires items)

/-- Sweeps over the items until one finds nothing. -/
def sweeps (found : List α) : List α :=
  if (sweep key fires items found).2 = true then sweeps (sweep key fires items found).1
  else (sweep key fires items found).1
termination_by remaining (items.map key) found
decreasing_by exact remaining_sweep_lt (by assumption)

variable {key fires items}

theorem sweep_induct {motive : α → Prop} {found : List α}
    (h : ∀ found, ∀ item ∈ items, (∀ a ∈ found, motive a) → fires found item = true →
      motive (key item))
    (hfound : ∀ a ∈ found, motive a) : ∀ a ∈ (sweep key fires items found).1, motive a := by
  have hfold : ∀ front : List β, (∀ item ∈ front, item ∈ items) → ∀ state : List α × Bool,
      (∀ a ∈ state.1, motive a) →
        ∀ a ∈ (front.foldl (visitItem key fires) state).1, motive a := by
    intro front hfront
    induction front with
    | nil => exact fun _ hstate => hstate
    | cons item front ih =>
      rw [List.forall_mem_cons] at hfront
      intro state hstate
      rw [List.foldl_cons]
      apply ih hfront.2
      unfold visitItem
      split_ifs with hfires
      · exact List.forall_mem_cons.mpr ⟨h _ item hfront.1 hstate hfires.2, hstate⟩
      · exact hstate
  exact hfold items (fun _ hitem => hitem) (found, false) hfound

/-- What holds of all that is found first, and of what each item adds, holds in the end. -/
theorem sweeps_induct {motive : α → Prop} {found : List α}
    (h : ∀ found, ∀ item ∈ items, (∀ a ∈ found, motive a) → fires found item = true →
      motive (key item))
    (hfound : ∀ a ∈ found, motive a) : ∀ a ∈ sweeps key fires items found, motive a := by
  induction found using sweeps.induct key fires items with
  | case1 found hchanged ih =>
    rw [sweeps, if_pos hchanged]
    exact ih (sweep_induct h hfound)
  | case2 found hunchanged =>
    rw [sweeps, if_neg hunchanged]
    exact sweep_induct h hfound

/-- The sweeps leave nothing to be found. -/
theorem sweeps_closed (found : List α) :
    ∀ item ∈ items, fires (sweeps key fires items found) item = true →
      key item ∈ sweeps key fires items found := by
  induction found using sweeps.induct key fires items with
  | case1 found hchanged ih =>
    rw [sweeps, if_pos hchanged]
    exact ih
  | case2 found hunchanged =>
    rw [sweeps, if_neg hunchanged]
    obtain ⟨heq, hall⟩ := sweep_unchanged (Bool.eq_false_of_not_eq_true hunchanged)
    rw [heq]
    exact hall

end Sweeps

end Foundation
