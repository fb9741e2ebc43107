import Mathlib.Data.List.Chain
import Mathlib.Data.List.Sort
import Mathlib.Order.Basic
import Mathlib.Tactic.Common
import Mathlib.Tactic.Ring

/-! Half-open intervals: in a list sorted by where they start, neighbours tell whether any two meet,
and a binary search finds the only one that can hold a point. -/
namespace Foundation

variable {α : Type} [LinearOrder α]

section Meeting

variable {r s : α × α} {l l' : List (α × α)} {n : α}

def Within (n : α) (r : α × α) : Prop := r.1 ≤ n ∧ n < r.2

def Meet (r s : α × α) : Prop := ∃ n, Within n r ∧ Within n s

/-- The first interval ends where the second one starts, or earlier. -/
def Before (r s : α × α) : Prop := r.2 ≤ s.1

/-- Intervals at different places of the list meet. -/
def Meets (l : List (α × α)) : Prop :=
  ∃ (i j : ℕ) (r s : α × α), i ≠ j ∧ l[i]? = some r ∧ l[j]? = some s ∧ Meet r s

theorem Meet.symm (h : Meet r s) : Meet s r := by
  obtain ⟨n, hr, hs⟩ := h
  exact ⟨n, hs, hr⟩

theorem Before.not_meet (h : Before r s) : ¬Meet r s := by
  intro ⟨n, hr, hs⟩
  exact absurd (h.trans hs.1) hr.2.not_ge

/-- Of two intervals with points, the one that starts first is before the other or meets it. -/
theorem before_iff_not_meet (hs : s.1 < s.2) (hle : r.1 ≤ s.1) : Before r s ↔ ¬Meet r s := by
  constructor
  · exact Before.not_meet
  · intro hmeet
    by_contra hbefore
    exact hmeet ⟨s.1, ⟨hle, not_le.mp hbefore⟩, le_rfl, hs⟩

theorem not_meets_iff : ¬Meets l ↔ l.Pairwise fun r s => ¬Meet r s := by
  rw [List.pairwise_iff_getElem]
  constructor
  · intro h i j hi hj hlt hmeet
    exact h ⟨i, j, _, _, hlt.ne, List.getElem?_eq_getElem hi, List.getElem?_eq_getElem hj, hmeet⟩
  · rintro h ⟨i, j, r, s, hne, hr, hs, hmeet⟩
    obtain ⟨hi, rfl⟩ := List.getElem?_eq_some_iff.mp hr
    obtain ⟨hj, rfl⟩ := List.getElem?_eq_some_iff.mp hs
    rcases hne.lt_or_gt with hlt | hlt
    · exact h i j hi hj hlt hmeet
    · exact h j i hj hi hlt hmeet.symm

/-- Whether intervals meet does not depend on their order. -/
theorem meets_perm (h : l.Perm l') : Meets l ↔ Meets l' := by
  rw [← not_iff_not, not_meets_iff, not_meets_iff]
  exact h.pairwise_iff fun hrs hsr => hrs hsr.symm

theorem pairwise_before_of_isChain (h : l.IsChain Before) (hproper : ∀ r ∈ l, r.1 < r.2) :
    l.Pairwise Before := by
  induction l with
  | nil => exact .nil
  | cons r l ih =>
    rw [List.forall_mem_cons] at hproper
    rw [List.isChain_cons] at h
    have hrest := ih h.2 hproper.2
    refine .cons ?_ hrest
    intro s hs
    cases l with
    | nil => exact absurd hs List.not_mem_nil
    | cons t l =>
      have hfirst : Before r t := h.1 t rfl
      rcases List.mem_cons.mp hs with rfl | hs
      · exact hfirst
      · have hnext := (List.pairwise_cons.mp hrest).1 s hs
        exact hfirst.trans ((hproper.2 t List.mem_cons_self).le.trans hnext)

/-- In the order of their starts, no two intervals meet when no neighbours do. -/
theorem isChain_before_iff (hsorted : l.Pairwise fun r s => r.1 ≤ s.1)
    (hproper : ∀ r ∈ l, r.1 < r.2) : l.IsChain Before ↔ ¬Meets l := by
  rw [not_meets_iff]
  constructor
  · intro h
    exact (pairwise_before_of_isChain h hproper).imp Before.not_meet
  · intro h
    apply List.Pairwise.isChain
    apply (hsorted.and h).imp_of_mem
    intro r s _ hs hboth
    exact (before_iff_not_meet (hproper s hs) hboth.1).mpr hboth.2

end Meeting

section Bisection

variable (keys : List α) (n : α)

/-- The loop of `bisect.bisect_right`. -/
def bisectRightFrom (lo hi : ℕ) : ℕ :=
  if _h : lo < hi then
    if keys[(lo + hi) / 2]?.any fun key => n < key then bisectRightFrom lo ((lo + hi) / 2)
    else bisectRightFrom ((lo + hi) / 2 + 1) hi
  else lo
termination_by hi - lo
decreasing_by
  · omega
  · omega

def bisectRight : ℕ := bisectRightFrom keys n 0 keys.length

variable {keys n}

private theorem le_of_getElem? (hsorted : keys.Pairwise (· ≤ ·)) {i j : ℕ} {a b : α} (hij : i ≤ j)
    (ha : keys[i]? = some a) (hb : keys[j]? = some b) : a ≤ b := by
  obtain ⟨hi, rfl⟩ := List.getElem?_eq_some_iff.mp ha
  obtain ⟨hj, rfl⟩ := List.getElem?_eq_some_iff.mp hb
  rcases hij.lt_or_eq with hlt | rfl
  · exact List.pairwise_iff_getElem.mp hsorted i j hi hj hlt
  · exact le_rfl

/-- The keys before the place found are not above `n`, the others are. -/
def Splits (keys : List α) (n : α) (lo hi : ℕ) : Prop :=
  (∀ i key, i < lo → keys[i]? = some key → key ≤ n) ∧
    ∀ i key, hi ≤ i → keys[i]? = some key → n < key

private theorem splits_of_above (hsorted : keys.Pairwise (· ≤ ·)) {lo hi mid : ℕ} {key : α}
    (h : Splits keys n lo hi) (hkey : keys[mid]? = some key) (hn : n < key) :
    Splits keys n lo mid := by
  refine ⟨h.1, ?_⟩
  intro i other hi hother
  exact hn.trans_le (le_of_getElem? hsorted hi hkey hother)

private theorem splits_of_below (hsorted : keys.Pairwise (· ≤ ·)) {lo hi mid : ℕ} {key : α}
    (h : Splits keys n lo hi) (hkey : keys[mid]? = some key) (hn : key ≤ n) :
    Splits keys n (mid + 1) hi := by
  refine ⟨?_, h.2⟩
  intro i other hi hother
  exact (le_of_getElem? hsorted (Nat.le_of_lt_succ hi) hother hkey).trans hn

theorem bisectRightFrom_splits (hsorted : keys.Pairwise (· ≤ ·)) {lo hi : ℕ}
    (hle : lo ≤ hi) (hhi : hi ≤ keys.length) (h : Splits keys n lo hi) :
    Splits keys n (bisectRightFrom keys n lo hi) (bisectRightFrom keys n lo hi) := by
  induction lo, hi using bisectRightFrom.induct keys n with
  | case1 lo hi hlt habove ih =>
    rw [bisectRightFrom, dif_pos hlt, if_pos habove]
    obtain ⟨key, hkey, hn⟩ := (Option.any_eq_true _ _).mp habove
    exact ih (by omega) (by omega) (splits_of_above hsorted h hkey (of_decide_eq_true hn))
  | case2 lo hi hlt habove ih =>
    rw [bisectRightFrom, dif_pos hlt, if_neg habove]
    have hmid : (lo + hi) / 2 < keys.length := by omega
    have hkey := List.getElem?_eq_getElem hmid
    have hn : keys[(lo + hi) / 2] ≤ n := by
      rw [hkey, Option.any_some, decide_eq_true_eq, not_lt] at habove
      exact habove
    exact ih (by omega) hhi (splits_of_below hsorted h hkey hn)
  | case3 lo hi hlt =>
    rw [bisectRightFrom, dif_neg hlt]
    obtain rfl : lo = hi := by omega
    exact h

theorem bisectRight_splits (hsorted : keys.Pairwise (· ≤ ·)) :
    Splits keys n (bisectRight keys n) (bisectRight keys n) := by
  apply bisectRightFrom_splits hsorted (Nat.zero_le _) le_rfl
  constructor
  · intro i key hi
    exact absurd hi i.not_lt_zero
  · intro i key hi hkey
    exact absurd (List.getElem?_eq_some_iff.mp hkey).1 hi.not_gt

theorem bisectRightFrom_le {lo hi : ℕ} (hle : lo ≤ hi) : bisectRightFrom keys n lo hi ≤ hi := by
  induction lo, hi using bisectRightFrom.induct keys n with
  | case1 lo hi hlt habove ih =>
    rw [bisectRightFrom, dif_pos hlt, if_pos habove]
    have hmid := ih (by omega)
    omega
  | case2 lo hi hlt habove ih =>
    rw [bisectRightFrom, dif_pos hlt, if_neg habove]
    exact ih (by omega)
  | case3 lo hi hlt =>
    rw [bisectRightFrom, dif_neg hlt]
    exact hle

theorem bisectRight_le : bisectRight keys n ≤ keys.length := bisectRightFrom_le (Nat.zero_le _)

/-- In disjoint intervals in order, only the last one that has started can hold a point. -/
theorem getElem?_of_within {l : List (α × α)} {r : α × α} (hbefore : l.Pairwise Before)
    (hproper : ∀ r ∈ l, r.1 < r.2) (hr : r ∈ l) (hn : Within n r) :
    0 < bisectRight (l.map Prod.fst) n ∧ l[bisectRight (l.map Prod.fst) n - 1]? = some r := by
  obtain ⟨i, hi, rfl⟩ := List.getElem_of_mem hr
  have hsorted : (l.map Prod.fst).Pairwise (· ≤ ·) := by
    rw [List.pairwise_map]
    apply hbefore.imp_of_mem
    intro r s hr _ hrs
    exact (hproper r hr).le.trans hrs
  have hsplits := bisectRight_splits (n := n) hsorted
  have hle : bisectRight (l.map Prod.fst) n ≤ (l.map Prod.fst).length := bisectRight_le
  rw [List.length_map] at hle
  set place := bisectRight (l.map Prod.fst) n
  have hlt : i < place := by
    by_contra hge
    have hkey : (l.map Prod.fst)[i]? = some l[i].1 := by
      rw [List.getElem?_map, List.getElem?_eq_getElem hi, Option.map_some]
    have habove := hsplits.2 i l[i].1 (not_lt.mp hge) hkey
    exact absurd hn.1 habove.not_ge
  have hlast : i = place - 1 := by
    by_contra hne
    have hbound : place - 1 < l.length := by omega
    have hbelow := hsplits.1 (place - 1) l[place - 1].1 (by omega) (by simp [hbound])
    have hrs : Before l[i] l[place - 1] :=
      List.pairwise_iff_getElem.mp hbefore i (place - 1) hi hbound (by omega)
    exact absurd (hrs.trans hbelow) hn.2.not_ge
  refine ⟨by omega, ?_⟩
  rw [← hlast]
  exact List.getElem?_eq_getElem hi

/-- Looking at the last interval that has started finds a point exactly where an interval holds
it. -/
theorem exists_within_iff {l : List (α × α)} (hbefore : l.Pairwise Before)
    (hproper : ∀ r ∈ l, r.1 < r.2) :
    (∃ r ∈ l, Within n r) ↔ ∃ r, 0 < bisectRight (l.map Prod.fst) n ∧
      l[bisectRight (l.map Prod.fst) n - 1]? = some r ∧ Within n r := by
  constructor
  · intro ⟨r, hr, hn⟩
    obtain ⟨hpos, hget⟩ := getElem?_of_within hbefore hproper hr hn
    exact ⟨r, hpos, hget, hn⟩
  · intro ⟨r, _, hget, hn⟩
    exact ⟨r, List.mem_of_getElem? hget, hn⟩

end Bisection

end Foundation
