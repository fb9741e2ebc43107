import Mathlib.Data.List.Nodup
import Mathlib.Data.List.Induction
import Mathlib.Data.List.Perm.Basic
import Mathlib.Data.List.Sort
import Mathlib.Tactic.Common
import Mathlib.Tactic.Ring

/-! Dictionaries: finite maps that keep their items in the order of insertion. -/
namespace Foundation

structure Dictionary (κ ν : Type) where
  items : List (κ × ν)
  distinct : (items.map Prod.fst).Nodup
deriving DecidableEq

namespace Dictionary

variable {κ ν : Type}

def keys (d : Dictionary κ ν) : List κ := d.items.map Prod.fst

theorem distinct_filter (d : Dictionary κ ν) (p : κ × ν → Bool) :
    ((d.items.filter p).map Prod.fst).Nodup :=
  d.distinct.sublist (List.filter_sublist.map Prod.fst)

theorem distinct_append (d : Dictionary κ ν) (k : κ) (v : ν) (h : k ∉ d.keys) :
    ((d.items ++ [(k, v)]).map Prod.fst).Nodup := by
  rw [List.map_append]
  apply List.Nodup.append d.distinct (List.nodup_singleton k)
  intro j hj hk
  rw [List.mem_singleton.mp hk] at hj
  exact h hj

theorem distinct_insertionSort (d : Dictionary κ ν) (le : κ × ν → κ × ν → Bool) :
    ((d.items.insertionSort fun a b => le a b).map Prod.fst).Nodup :=
  ((List.perm_insertionSort (fun a b => le a b) d.items).map Prod.fst).nodup_iff.mpr d.distinct

variable [DecidableEq κ]

def empty : Dictionary κ ν := ⟨[], List.nodup_nil⟩

def get? (d : Dictionary κ ν) (k : κ) : Option ν := (d.items.find? fun i => i.1 = k).map Prod.snd

def pop (d : Dictionary κ ν) (k : κ) : Dictionary κ ν :=
  ⟨d.items.filter fun i => i.1 ≠ k, d.distinct_filter _⟩

/-- The value of a key that is present changes where it stands. -/
def replaced (d : Dictionary κ ν) (k : κ) (v : ν) : List (κ × ν) :=
  d.items.map fun i => if i.1 = k then (k, v) else i

theorem keys_replaced (d : Dictionary κ ν) (k : κ) (v : ν) :
    (d.replaced k v).map Prod.fst = d.items.map Prod.fst := by
  unfold replaced
  rw [List.map_map]
  apply List.map_congr_left
  intro i hi
  by_cases h : i.1 = k
  · simp [h]
  · simp [h]

theorem distinct_replaced (d : Dictionary κ ν) (k : κ) (v : ν) :
    ((d.replaced k v).map Prod.fst).Nodup := by
  rw [keys_replaced]
  exact d.distinct

def set (d : Dictionary κ ν) (k : κ) (v : ν) : Dictionary κ ν :=
  if h : k ∈ d.keys then ⟨d.replaced k v, d.distinct_replaced k v⟩
  else ⟨d.items ++ [(k, v)], d.distinct_append k v h⟩

/-- The same items in the order of their keys. -/
def sorted (le : κ → κ → Bool) (d : Dictionary κ ν) : Dictionary κ ν :=
  ⟨d.items.insertionSort fun a b => le a.1 b.1, d.distinct_insertionSort fun a b => le a.1 b.1⟩

/-- Equality as the language compares dictionaries: the order of the items does not count. -/
def Same (d e : Dictionary κ ν) : Prop := ∀ k ∈ d.keys ++ e.keys, d.get? k = e.get? k

instance [DecidableEq ν] (d e : Dictionary κ ν) : Decidable (d.Same e) :=
  inferInstanceAs (Decidable (∀ k ∈ d.keys ++ e.keys, d.get? k = e.get? k))

section Lookup

variable {d e : Dictionary κ ν} {k : κ} {v : ν}

theorem get?_eq_some_iff : d.get? k = some v ↔ (k, v) ∈ d.items := by
  unfold get?
  constructor
  · intro h
    obtain ⟨i, hi, hv⟩ := Option.map_eq_some_iff.mp h
    have hk : i.1 = k := by simpa using List.find?_some hi
    have hmem := List.mem_of_find?_eq_some hi
    rw [← hk, ← hv]
    exact hmem
  · intro h
    obtain ⟨i, hi⟩ : ∃ i, d.items.find? (fun i => i.1 = k) = some i := by
      rw [← Option.isSome_iff_exists, List.find?_isSome]
      exact ⟨(k, v), h, by simp⟩
    have hk : i.1 = k := by simpa using List.find?_some hi
    have heq : i = (k, v) := List.inj_on_of_nodup_map d.distinct (List.mem_of_find?_eq_some hi) h hk
    rw [hi, heq]
    rfl

theorem mem_keys_iff : k ∈ d.keys ↔ ∃ v, d.get? k = some v := by
  constructor
  · intro h
    obtain ⟨i, hi, rfl⟩ := List.mem_map.mp h
    exact ⟨i.2, get?_eq_some_iff.mpr hi⟩
  · intro ⟨v, hv⟩
    exact List.mem_map.mpr ⟨(k, v), get?_eq_some_iff.mp hv, rfl⟩

theorem get?_eq_none_iff : d.get? k = none ↔ k ∉ d.keys := by
  rw [mem_keys_iff, Option.eq_none_iff_forall_ne_some]
  push Not
  rfl

theorem mem_keys_of_get? (h : d.get? k = some v) : k ∈ d.keys := mem_keys_iff.mpr ⟨v, h⟩

@[simp] theorem get?_empty (k : κ) : (empty : Dictionary κ ν).get? k = none := rfl

theorem mem_items_pop {i : κ × ν} : i ∈ (d.pop k).items ↔ i ∈ d.items ∧ i.1 ≠ k := by
  unfold pop
  simp [List.mem_filter]

theorem get?_pop (k j : κ) : (d.pop k).get? j = if j = k then none else d.get? j := by
  apply Option.ext
  intro v
  rw [get?_eq_some_iff, mem_items_pop]
  split_ifs with h
  · simp [h]
  · simp [h, get?_eq_some_iff]

theorem get?_pop_of_ne {j : κ} (h : j ≠ k) : (d.pop k).get? j = d.get? j := by
  rw [get?_pop, if_neg h]

theorem mem_items_set {i : κ × ν} :
    i ∈ (d.set k v).items ↔ i = (k, v) ∨ (i ∈ d.items ∧ i.1 ≠ k) := by
  unfold set
  split_ifs with h
  · unfold replaced
    simp only [List.mem_map]
    constructor
    · intro ⟨j, hj, hji⟩
      by_cases hk : j.1 = k
      · rw [if_pos hk] at hji
        exact .inl hji.symm
      · rw [if_neg hk] at hji
        exact .inr ⟨hji ▸ hj, hji ▸ hk⟩
    · intro hi
      rcases hi with rfl | ⟨hi, hk⟩
      · obtain ⟨j, hj, hjk⟩ := List.mem_map.mp h
        exact ⟨j, hj, if_pos hjk⟩
      · exact ⟨i, hi, if_neg hk⟩
  · simp only [List.mem_append, List.mem_singleton]
    constructor
    · intro hi
      rcases hi with hi | rfl
      · exact .inr ⟨hi, fun hk => h (hk ▸ List.mem_map_of_mem (f := Prod.fst) hi)⟩
      · exact .inl rfl
    · intro hi
      rcases hi with rfl | ⟨hi, -⟩
      · exact .inr rfl
      · exact .inl hi

theorem get?_set (k j : κ) (v : ν) : (d.set k v).get? j = if j = k then some v else d.get? j := by
  apply Option.ext
  intro w
  rw [get?_eq_some_iff, mem_items_set]
  split_ifs with h
  · simp [h, eq_comm]
  · simp [h, get?_eq_some_iff]

@[simp] theorem get?_set_self (k : κ) (v : ν) : (d.set k v).get? k = some v := by
  rw [get?_set, if_pos rfl]

theorem get?_set_of_ne {j : κ} (h : j ≠ k) : (d.set k v).get? j = d.get? j := by
  rw [get?_set, if_neg h]

theorem keys_set_of_notMem (h : k ∉ d.keys) : (d.set k v).keys = d.keys ++ [k] := by
  unfold set
  rw [dif_neg h]
  exact List.map_append

theorem mem_keys_set {j : κ} : j ∈ (d.set k v).keys ↔ j = k ∨ j ∈ d.keys := by
  rw [mem_keys_iff, mem_keys_iff]
  simp only [get?_set]
  split_ifs with h
  · simp [h]
  · simp [h]

theorem mem_items_foldl_set {β : Type} (key : β → κ) (value : β → ν) {l : List β}
    (h : (l.map key).Nodup) {i : κ × ν} :
    i ∈ (l.foldl (fun d b => d.set (key b) (value b)) empty).items ↔
      ∃ b ∈ l, i = (key b, value b) := by
  induction l using List.reverseRecOn with
  | nil => simp [empty]
  | append_singleton l b ih =>
    rw [List.map_append, List.nodup_append] at h
    obtain ⟨hnodup, -, hdisjoint⟩ := h
    rw [List.foldl_append, List.foldl_cons, List.foldl_nil, mem_items_set, ih hnodup]
    simp only [List.mem_append, List.mem_singleton]
    constructor
    · intro hi
      rcases hi with rfl | ⟨⟨c, hc, rfl⟩, -⟩
      · exact ⟨b, .inr rfl, rfl⟩
      · exact ⟨c, .inl hc, rfl⟩
    · intro ⟨c, hc, hi⟩
      rcases hc with hc | rfl
      · refine .inr ⟨⟨c, hc, hi⟩, ?_⟩
        rw [hi]
        exact hdisjoint _ (List.mem_map_of_mem hc) _ (by simp)
      · exact .inl hi

end Lookup

section Search

variable {d : Dictionary κ ν} {k : κ} {p : κ × ν → Bool}

end Search

section Same

variable {d e f : Dictionary κ ν}

theorem same_iff : d.Same e ↔ ∀ k, d.get? k = e.get? k := by
  constructor
  · intro h k
    by_cases hk : k ∈ d.keys ++ e.keys
    · exact h k hk
    · rw [List.mem_append, not_or] at hk
      rw [get?_eq_none_iff.mpr hk.1, get?_eq_none_iff.mpr hk.2]
  · intro h k _
    exact h k

theorem Same.get? (h : d.Same e) (k : κ) : d.get? k = e.get? k := same_iff.mp h k

end Same

section Values

variable {μ : Type} (d : Dictionary κ ν) (f : ν → μ)

omit [DecidableEq κ] in
theorem distinct_mapValues : ((d.items.map fun i => (i.1, f i.2)).map Prod.fst).Nodup := by
  rw [List.map_map]
  exact d.distinct

/-- The same keys with other values. -/
def mapValues : Dictionary κ μ := ⟨d.items.map fun i => (i.1, f i.2), d.distinct_mapValues f⟩

theorem get?_mapValues (k : κ) : (d.mapValues f).get? k = (d.get? k).map f := by
  unfold get?
  show (List.find? _ (d.items.map fun i => (i.1, f i.2))).map Prod.snd = _
  rw [List.find?_map, Option.map_map, Option.map_map]
  rfl

end Values

end Dictionary

end Foundation
