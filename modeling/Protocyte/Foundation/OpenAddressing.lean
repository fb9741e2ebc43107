import Mathlib.Data.Nat.Notation
import Mathlib.Data.List.ReduceOption
import Mathlib.Data.Nat.Find
import Mathlib.Tactic.Common
import Mathlib.Tactic.Ring

/-! Open addressing with linear probing. A walk starts at an entry's home slot and goes round the
table; the entries on the way to an entry are never removed. -/
namespace Foundation.OpenAddressing

variable {E : Type}

/-- Every slot is empty or holds an entry. -/
abbrev Table (E : Type) := List (Option E)

/-- The first slot from `i` on at which a walk stops, if it does within the given visits. -/
def probe (stop : Option E → Bool) (next : ℕ → ℕ) (t : Table E) : ℕ → ℕ → Option ℕ
  | 0, _ => none
  | n + 1, i =>
    match t[i]? with
    | none => none
    | some slot => if stop slot then some i else probe stop next t n (next i)

def Vacant (t : Table E) (i : ℕ) : Prop := t[i]? = some none

def Filled (t : Table E) (i : ℕ) : Prop := ∃ e, t[i]? = some (some e)

/-- The slot of the `n`-th visit of a walk from `h`. -/
def visit (t : Table E) (h n : ℕ) : ℕ := (h + n) % t.length

/-- The walk from an entry's home to the entry meets no empty slot. -/
def Chained (home : E → ℕ) (t : Table E) : Prop :=
  ∀ (i : ℕ) (e : E), t[i]? = some (some e) →
    ∃ n < t.length, visit t (home e) n = i ∧ ∀ d < n, Filled t (visit t (home e) d)

/-- No two slots hold the same entry. -/
def Distinct (same : E → E → Prop) (t : Table E) : Prop :=
  ∀ (i j : ℕ) (e f : E), t[i]? = some (some e) → t[j]? = some (some f) → same e f → i = j

/-- The number of entries. -/
def load (t : Table E) : ℕ := t.countP Option.isSome

variable {t : Table E} {home : E → ℕ} {same : E → E → Prop} {i h n : ℕ} {e : E}

theorem Filled.not_vacant (hf : Filled t i) : ¬ Vacant t i := by
  obtain ⟨e, he⟩ := hf
  intro hn
  rw [Vacant, he] at hn
  cases hn

theorem Vacant.lt_length (he : Vacant t i) : i < t.length := (List.getElem?_eq_some_iff.mp he).1

theorem vacant_or_filled (hi : i < t.length) : Vacant t i ∨ Filled t i := by
  cases he : t[i] with
  | none => exact Or.inl (by rw [Vacant, List.getElem?_eq_getElem hi, he])
  | some e => exact Or.inr ⟨e, by rw [List.getElem?_eq_getElem hi, he]⟩

theorem visit_lt (hpos : 0 < t.length) (h n : ℕ) : visit t h n < t.length := Nat.mod_lt _ hpos

/-- Every slot is on every walk. -/
theorem exists_visit (hi : i < t.length) (h : ℕ) : ∃ n < t.length, visit t h n = i := by
  have hm := Nat.mod_lt h (Nat.lt_of_le_of_lt (Nat.zero_le i) hi)
  rcases Nat.lt_or_ge i (h % t.length) with hlt | hge
  · refine ⟨t.length + i - h % t.length, by omega, ?_⟩
    have hsum : h % t.length + (t.length + i - h % t.length) = t.length + i := by omega
    rw [visit, ← Nat.mod_add_mod, hsum, Nat.add_mod_left, Nat.mod_eq_of_lt hi]
  · refine ⟨i - h % t.length, by omega, ?_⟩
    have hsum : h % t.length + (i - h % t.length) = i := by omega
    rw [visit, ← Nat.mod_add_mod, hsum, Nat.mod_eq_of_lt hi]

theorem exists_vacant (hl : load t < t.length) : ∃ i, Vacant t i := by
  by_contra hne
  have hall : ∀ slot ∈ t, Option.isSome slot = true := by
    intro slot hs
    obtain ⟨i, hi, rfl⟩ := List.mem_iff_getElem.mp hs
    rcases vacant_or_filled hi with he | ⟨e, he⟩
    · exact absurd ⟨i, he⟩ hne
    · rw [List.getElem?_eq_getElem hi] at he
      rw [Option.some.inj he]
      rfl
  have := List.countP_eq_length.mpr hall
  unfold load at hl
  omega

/-- A walk in a table with room comes to an empty slot before it is round. -/
theorem exists_first_vacant (hl : load t < t.length) (h : ℕ) :
    ∃ n < t.length, Vacant t (visit t h n) ∧ ∀ d < n, Filled t (visit t h d) := by
  classical
  obtain ⟨i, hi⟩ := exists_vacant hl
  obtain ⟨m, hm, hv⟩ := exists_visit hi.lt_length h
  have hex : ∃ n, Vacant t (visit t h n) := ⟨m, hv ▸ hi⟩
  have hle : Nat.find hex ≤ m := Nat.find_le (hv ▸ hi)
  refine ⟨Nat.find hex, Nat.lt_of_le_of_lt hle hm, Nat.find_spec hex, fun d hd => ?_⟩
  have hlen : 0 < t.length := Nat.lt_of_le_of_lt (Nat.zero_le m) hm
  exact (vacant_or_filled (visit_lt hlen h d)).resolve_left (Nat.find_min hex hd)

variable {stop : Option E → Bool} {next : ℕ → ℕ}

/-- `probe` finds the first stop of the walk. -/
theorem probe_eq (hnext : ∀ i < t.length, next i = (i + 1) % t.length) {slot : Option E}
    (hs : t[visit t h n]? = some slot) (hstop : stop slot = true)
    (hgo : ∀ d < n, ∃ slot, t[visit t h d]? = some slot ∧ stop slot = false) {fuel : ℕ}
    (hfuel : n < fuel) : probe stop next t fuel (visit t h 0) = some (visit t h n) := by
  induction n generalizing h fuel with
  | zero =>
    obtain ⟨fuel, rfl⟩ : ∃ k, fuel = k + 1 := ⟨fuel - 1, by omega⟩
    simp only [probe, hs, hstop, if_true]
  | succ n ih =>
    obtain ⟨fuel, rfl⟩ : ∃ k, fuel = k + 1 := ⟨fuel - 1, by omega⟩
    obtain ⟨slot₀, hs₀, hstop₀⟩ := hgo 0 (Nat.succ_pos n)
    have hlt : visit t h 0 < t.length := (List.getElem?_eq_some_iff.mp hs₀).1
    have hstep : next (visit t h 0) = visit t (h + 1) 0 := by
      rw [hnext _ hlt]
      simp [visit]
    have hshift : ∀ d, visit t (h + 1) d = visit t h (d + 1) := by
      intro d
      simp only [visit, Nat.add_assoc, Nat.add_comm 1 d]
    simp only [probe, hs₀, hstop₀, Bool.false_eq_true, if_false, hstep]
    rw [← hshift n]
    refine ih (by rw [hshift]; exact hs) (fun d hd => ?_) (by omega)
    rw [hshift]
    exact hgo (d + 1) (by omega)

/-- What a walk has not met before it comes to an empty slot is not in the table. -/
theorem Chained.met (hc : Chained home t) (hi : t[i]? = some (some e))
    (hn : Vacant t (visit t (home e) n)) : ∃ d < n, visit t (home e) d = i := by
  obtain ⟨m, -, hv, hf⟩ := hc i e hi
  rcases Nat.lt_or_ge m n with hlt | hge
  · exact ⟨m, hlt, hv⟩
  · exfalso
    rcases Nat.lt_or_eq_of_le hge with hlt | rfl
    · exact (hf n hlt).not_vacant hn
    · rw [hv, Vacant, hi] at hn
      cases hn

private theorem visit_set (i : ℕ) (slot : Option E) (h n : ℕ) :
    visit (t.set i slot) h n = visit t h n := by
  simp [visit]

private theorem Filled.set (hf : Filled t n) (i : ℕ) (e : E) : Filled (t.set i (some e)) n := by
  obtain ⟨f, hf⟩ := hf
  by_cases hin : i = n
  · subst hin
    exact ⟨e, by rw [List.getElem?_set_self (List.getElem?_eq_some_iff.mp hf).1]⟩
  · exact ⟨f, by rw [List.getElem?_set_ne hin, hf]⟩

/-- An entry at the end of its own walk leaves every entry reachable. -/
theorem Chained.set (hc : Chained home t) (hn : n < t.length)
    (hf : ∀ d < n, Filled t (visit t (home e) d)) :
    Chained home (t.set (visit t (home e) n) (some e)) := by
  intro j f hj
  simp only [visit_set, List.length_set]
  by_cases hjn : visit t (home e) n = j
  · subst hjn
    have hlt : visit t (home e) n < t.length := visit_lt (by omega) _ _
    rw [List.getElem?_set_self hlt] at hj
    cases hj
    exact ⟨n, hn, rfl, fun d hd => (hf d hd).set _ _⟩
  · rw [List.getElem?_set_ne hjn] at hj
    obtain ⟨m, hm, hv, hfm⟩ := hc j f hj
    exact ⟨m, hm, hv, fun d hd => (hfm d hd).set _ _⟩

/-- An entry that takes the place of one with the same home leaves every entry reachable. -/
theorem Chained.replace {e' : E} (hc : Chained home t) (hi : t[i]? = some (some e))
    (hh : home e' = home e) : Chained home (t.set i (some e')) := by
  obtain ⟨n, hn, hv, hf⟩ := hc i e hi
  have hset := Chained.set (e := e') hc hn (by rw [hh]; exact hf)
  rwa [hh, hv] at hset

theorem Distinct.set (hd : Distinct same t) (hi : i < t.length)
    (hs : ∀ (j : ℕ) (f : E), i ≠ j → t[j]? = some (some f) → ¬ same e f ∧ ¬ same f e) :
    Distinct same (t.set i (some e)) := by
  intro j k f g hj hk hfg
  by_cases hij : i = j
  · by_cases hik : i = k
    · exact hij.symm.trans hik
    · subst hij
      rw [List.getElem?_set_self hi] at hj
      cases hj
      rw [List.getElem?_set_ne hik] at hk
      exact absurd hfg (hs k g hik hk).1
  · rw [List.getElem?_set_ne hij] at hj
    by_cases hik : i = k
    · subst hik
      rw [List.getElem?_set_self hi] at hk
      cases hk
      exact absurd hfg (hs j f hij hj).2
    · rw [List.getElem?_set_ne hik] at hk
      exact hd j k f g hj hk hfg

theorem mem_reduceOption : e ∈ t.reduceOption ↔ ∃ i : ℕ, t[i]? = some (some e) := by
  rw [List.reduceOption_mem_iff, List.mem_iff_getElem?]

theorem Distinct.pairwise (hd : Distinct same t) :
    t.reduceOption.Pairwise (fun e f => ¬ same e f) := by
  unfold List.reduceOption
  rw [List.pairwise_filterMap, List.pairwise_iff_getElem]
  intro i j hi hj hij e he f hf hs
  have := hd i j e f (by rw [List.getElem?_eq_getElem hi]; exact congrArg some he)
    (by rw [List.getElem?_eq_getElem hj]; exact congrArg some hf) hs
  omega

theorem length_reduceOption : t.reduceOption.length = load t :=
  List.reduceOption_length_eq.trans List.countP_eq_length_filter.symm

theorem load_set_vacant (hi : Vacant t i) (e : E) : load (t.set i (some e)) = load t + 1 := by
  have hlt := hi.lt_length
  have hnone : t[i] = none := by
    rw [Vacant, List.getElem?_eq_getElem hlt] at hi
    exact Option.some.inj hi
  rw [load, List.countP_set hlt, hnone]
  rfl

theorem load_set_filled (hi : Filled t i) (e : E) : load (t.set i (some e)) = load t := by
  obtain ⟨f, hf⟩ := hi
  obtain ⟨hlt, hsome⟩ := List.getElem?_eq_some_iff.mp hf
  have hpos : 0 < load t :=
    List.countP_pos_iff.mpr ⟨some f, List.mem_of_getElem? hf, rfl⟩
  unfold load at hpos ⊢
  rw [List.countP_set hlt, hsome]
  simp only [Option.isSome_some, if_true]
  omega

end Foundation.OpenAddressing
