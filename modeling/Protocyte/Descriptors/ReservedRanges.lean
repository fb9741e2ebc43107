import Protocyte.Foundation.Computation
import Protocyte.Foundation.Intervals
import Mathlib.Data.Prod.Lex

/-! The reserved names and numbers of enums and messages: what their ranges must satisfy, and the
sorting and searching that checks it. -/
namespace Protocyte.Descriptors

open Foundation Foundation.Computation

abbrev Range := ℤ × ℤ

section Searching

/-- The loop over neighbours of the sorted ranges. -/
def overlapFrom (endInclusive : Bool) (previous : Range) : List Range → Option (Range × Range)
  | [] => none
  | current :: rest =>
    if bif endInclusive then decide (current.1 ≤ previous.2) else decide (current.1 < previous.2) then
      some (previous, current)
    else overlapFrom endInclusive current rest

def findOverlap (endInclusive : Bool) : List Range → Option (Range × Range)
  | [] => none
  | first :: rest => overlapFrom endInclusive first rest

def sortRanges (ranges : List Range) : List Range :=
  ranges.insertionSort fun a b => toLex a ≤ toLex b

def sortRangesAndFindOverlap (ranges : List Range) (endInclusive : Bool) :
    List Range × Option (Range × Range) :=
  let ordered := sortRanges ranges
  (ordered, findOverlap endInclusive ordered)

def findContainingRange (ranges : List Range) (rangeStarts : List ℤ) (value : ℤ)
    (endInclusive : Bool) : Option Range :=
  let rangeIndex : ℤ := bisectRight rangeStarts value - 1
  if rangeIndex < 0 then none
  else
    ranges[rangeIndex.toNat]?.filter fun range =>
      decide (value < range.2) || (endInclusive && decide (value = range.2))

end Searching

section Validating

/-- What tells the checks of reserved enum values from those of reserved fields. -/
structure ReservedKind where
  numbered : String
  closing : String
  endInclusive : Bool

def reservedEnumValues : ReservedKind := ⟨"enum", "]", true⟩

def reservedFields : ReservedKind := ⟨"field", ")", false⟩

variable (kind : ReservedKind) (owner : String)

def ReservedKind.show (range : Range) : String := s!"[{range.1}, {range.2}{kind.closing}"

/-- The loop over the numbers in use. -/
def validateNumbers (ranges : List Range) (rangeStarts : List ℤ) :
    List (ℤ × String) → Except String Unit
  | [] => .ok ()
  | (number, name) :: rest =>
    match findContainingRange ranges rangeStarts number kind.endInclusive with
    | some _ => .error s!"{owner}.{name}: {kind.numbered} number {number} is reserved"
    | none => validateNumbers ranges rangeStarts rest

def validateDisjoint (ranges : List Range) (numbers : List (ℤ × String)) : Except String Unit :=
  match sortRangesAndFindOverlap ranges kind.endInclusive with
  | (_, some (previous, current)) =>
    .error s!"{owner}: reserved {kind.numbered} ranges {kind.show previous} and {kind.show current} overlap"
  | (ranges, none) => validateNumbers kind owner ranges (ranges.map Prod.fst) numbers

variable {kind owner}

def readEnumRange (owner : String) : Option ℤ × Option ℤ → Except String Range
  | (some first, some last) =>
    if first > last then
      .error s!"{owner}: invalid reserved enum range {reservedEnumValues.show (first, last)}"
    else .ok (first, last)
  | _ => .error s!"{owner}: reserved enum range must specify start and end"

def maxFieldNumber : ℤ := 2 ^ 29 - 1

def readFieldRange (owner : String) (range : Range) : Except String Range :=
  if range.1 < 1 ∨ range.2 > maxFieldNumber + 1 ∨ range.1 ≥ range.2 then
    .error s!"{owner}: invalid reserved field range {reservedFields.show range}"
  else .ok range

def validateReservedEnumRanges (owner : String) (reservedRange : List (Option ℤ × Option ℤ))
    (valueNumbers : List (ℤ × String)) : Except String Unit := do
  let ranges ← reservedRange.mapM (readEnumRange owner)
  validateDisjoint reservedEnumValues owner ranges valueNumbers

def validateReservedFieldRanges (owner : String) (reservedRange : List Range)
    (fieldNumbers : List (ℤ × String)) : Except String Unit := do
  let ranges ← reservedRange.mapM (readFieldRange owner)
  validateDisjoint reservedFields owner ranges fieldNumbers

end Validating

section Meaning

variable {kind : ReservedKind} {owner : String} {ranges : List Range} {n : ℤ} {r s : Range}

/-- A number is in a range, whose end belongs to it or not. -/
def ReservedKind.Holds (kind : ReservedKind) (n : ℤ) (range : Range) : Prop :=
  range.1 ≤ n ∧ if kind.endInclusive then n ≤ range.2 else n < range.2

instance : Decidable (kind.Holds n r) :=
  inferInstanceAs (Decidable (r.1 ≤ n ∧ if kind.endInclusive then n ≤ r.2 else n < r.2))

def ReservedKind.Proper (kind : ReservedKind) (range : Range) : Prop :=
  if kind.endInclusive then range.1 ≤ range.2 else range.1 < range.2

/-- Ranges at different places of the list have a number in common. -/
def ReservedKind.Intersect (kind : ReservedKind) (ranges : List Range) : Prop :=
  ∃ (i j : ℕ) (r s : Range), i ≠ j ∧ ranges[i]? = some r ∧ ranges[j]? = some s ∧
    ∃ n, kind.Holds n r ∧ kind.Holds n s

/-- A number in use is in a range. -/
def ReservedKind.Used (kind : ReservedKind) (ranges : List Range) (numbers : List (ℤ × String)) :
    Prop :=
  ∃ item ∈ numbers, ∃ range ∈ ranges, kind.Holds item.1 range

/-- The same numbers, with an end that does not belong to them. -/
def ReservedKind.halfOpen (kind : ReservedKind) (range : Range) : Range :=
  (range.1, if kind.endInclusive then range.2 + 1 else range.2)

theorem holds_iff : kind.Holds n r ↔ Within n (kind.halfOpen r) := by
  unfold ReservedKind.Holds Within ReservedKind.halfOpen
  split_ifs
  · rw [Int.lt_add_one_iff]
  · rfl

theorem proper_iff : kind.Proper r ↔ (kind.halfOpen r).1 < (kind.halfOpen r).2 := by
  unfold ReservedKind.Proper ReservedKind.halfOpen
  split_ifs
  · rw [Int.lt_add_one_iff]
  · rfl

theorem intersect_iff : kind.Intersect ranges ↔ Meets (ranges.map kind.halfOpen) := by
  constructor
  · intro ⟨i, j, r, s, hne, hr, hs, n, hnr, hns⟩
    refine ⟨i, j, kind.halfOpen r, kind.halfOpen s, hne, ?_, ?_, n, holds_iff.mp hnr,
      holds_iff.mp hns⟩
    · rw [List.getElem?_map, hr, Option.map_some]
    · rw [List.getElem?_map, hs, Option.map_some]
  · intro ⟨i, j, r', s', hne, hr, hs, n, hnr, hns⟩
    rw [List.getElem?_map, Option.map_eq_some_iff] at hr hs
    obtain ⟨r, hr, rfl⟩ := hr
    obtain ⟨s, hs, rfl⟩ := hs
    exact ⟨i, j, r, s, hne, hr, hs, n, holds_iff.mpr hnr, holds_iff.mpr hns⟩

theorem intersect_perm {ranges' : List Range} (h : ranges.Perm ranges') :
    kind.Intersect ranges ↔ kind.Intersect ranges' := by
  rw [intersect_iff, intersect_iff]
  exact meets_perm (h.map _)

end Meaning

section Correctness

variable {kind : ReservedKind} {owner : String} {ranges : List Range}
  {numbers : List (ℤ × String)} {n : ℤ} {r s : Range}

private theorem overlaps_iff :
    (bif kind.endInclusive then decide (s.1 ≤ r.2) else decide (s.1 < r.2)) = true ↔
      ¬Before (kind.halfOpen r) (kind.halfOpen s) := by
  unfold Before ReservedKind.halfOpen
  cases kind.endInclusive with
  | true => simp [Int.add_one_le_iff]
  | false => simp

theorem overlapFrom_eq_none_iff {previous : Range} :
    overlapFrom kind.endInclusive previous ranges = none ↔
      ((previous :: ranges).map kind.halfOpen).IsChain Before := by
  induction ranges generalizing previous with
  | nil => simp [overlapFrom]
  | cons current rest ih =>
    rw [overlapFrom, List.map_cons, List.map_cons, List.isChain_cons_cons, ← List.map_cons, ← ih]
    split_ifs with h
    · have hbefore := overlaps_iff.mp h
      simp [hbefore]
    · have hbefore : Before (kind.halfOpen previous) (kind.halfOpen current) := by
        rw [overlaps_iff, not_not] at h
        exact h
      simp [hbefore]

theorem findOverlap_eq_none_iff :
    findOverlap kind.endInclusive ranges = none ↔ (ranges.map kind.halfOpen).IsChain Before := by
  cases ranges with
  | nil => simp [findOverlap]
  | cons first rest =>
    rw [findOverlap]
    exact overlapFrom_eq_none_iff

theorem sortRanges_perm : (sortRanges ranges).Perm ranges := List.perm_insertionSort _ _

theorem sortRanges_sorted : (sortRanges ranges).Pairwise fun r s => r.1 ≤ s.1 := by
  have hsorted := List.pairwise_insertionSort (fun a b : Range => toLex a ≤ toLex b) ranges
  apply hsorted.imp
  intro r s h
  rcases Prod.Lex.toLex_le_toLex.mp h with h | h
  · exact h.le
  · exact h.1.le

/-- Neighbours of the sorted ranges overlap exactly where any two ranges do. -/
theorem findOverlap_sortRanges (hproper : ∀ r ∈ ranges, kind.Proper r) :
    findOverlap kind.endInclusive (sortRanges ranges) = none ↔ ¬kind.Intersect ranges := by
  rw [findOverlap_eq_none_iff, ← intersect_perm sortRanges_perm, intersect_iff]
  apply isChain_before_iff
  · rw [List.pairwise_map]
    exact sortRanges_sorted
  · intro r' hr'
    obtain ⟨r, hr, rfl⟩ := List.mem_map.mp hr'
    exact proper_iff.mp (hproper r (sortRanges_perm.mem_iff.mp hr))

private theorem containing_iff :
    (decide (n < r.2) || (kind.endInclusive && decide (n = r.2))) = true ↔
      n < (kind.halfOpen r).2 := by
  unfold ReservedKind.halfOpen
  cases kind.endInclusive with
  | true => simp [Int.lt_add_one_iff, le_iff_lt_or_eq]
  | false => simp

private theorem map_fst_halfOpen :
    (ranges.map kind.halfOpen).map Prod.fst = ranges.map Prod.fst := by
  rw [List.map_map]
  rfl

/-- In disjoint ranges in order, one step to the left of where a number would go finds the range
that holds it. -/
theorem findContainingRange_ne_none_iff (hproper : ∀ r ∈ ranges, kind.Proper r)
    (hbefore : (ranges.map kind.halfOpen).Pairwise Before) :
    findContainingRange ranges (ranges.map Prod.fst) n kind.endInclusive ≠ none ↔
      ∃ r ∈ ranges, kind.Holds n r := by
  have hproper' : ∀ r' ∈ ranges.map kind.halfOpen, r'.1 < r'.2 := by
    intro r' hr'
    obtain ⟨r, hr, rfl⟩ := List.mem_map.mp hr'
    exact proper_iff.mp (hproper r hr)
  have hwithin : (∃ r ∈ ranges, kind.Holds n r) ↔
      ∃ r' ∈ ranges.map kind.halfOpen, Within n r' := by
    simp only [List.mem_map, holds_iff, exists_exists_and_eq_and]
  rw [hwithin, exists_within_iff hbefore hproper', map_fst_halfOpen]
  have hsorted : (ranges.map Prod.fst).Pairwise (· ≤ ·) := by
    rw [← @map_fst_halfOpen kind ranges, List.pairwise_map]
    apply hbefore.imp_of_mem
    intro r s hr _ hrs
    exact (hproper' r hr).le.trans hrs
  have hsplits := bisectRight_splits (n := n) hsorted
  unfold findContainingRange
  set place := bisectRight (ranges.map Prod.fst) n
  by_cases hpos : 0 < place
  · have hindex : ¬(place : ℤ) - 1 < 0 := by omega
    have hnat : ((place : ℤ) - 1).toNat = place - 1 := by omega
    simp only [hindex, if_false, hnat, hpos, true_and, List.getElem?_map]
    cases hget : ranges[place - 1]? with
    | none => simp
    | some r =>
      have hstarted : r.1 ≤ n := by
        apply hsplits.1 (place - 1) r.1 (by omega)
        rw [List.getElem?_map, hget, Option.map_some]
      rw [Option.map_some, Option.filter_some]
      constructor
      · intro h
        refine ⟨_, rfl, hstarted, ?_⟩
        by_contra hout
        rw [← containing_iff] at hout
        exact h (if_neg hout)
      · rintro ⟨r', hr', hn⟩
        cases hr'
        rw [if_pos (containing_iff.mpr hn.2)]
        exact Option.some_ne_none r
  · have hindex : (place : ℤ) - 1 < 0 := by omega
    simp [hindex, hpos]

theorem validateNumbers_ok_iff {rangeStarts : List ℤ} :
    validateNumbers kind owner ranges rangeStarts numbers = .ok () ↔
      ∀ item ∈ numbers, findContainingRange ranges rangeStarts item.1 kind.endInclusive = none := by
  induction numbers with
  | nil => simp [validateNumbers]
  | cons item rest ih =>
    obtain ⟨number, name⟩ := item
    rw [validateNumbers, List.forall_mem_cons, ← ih]
    cases findContainingRange ranges rangeStarts number kind.endInclusive with
    | none => simp
    | some range => simp

theorem validateDisjoint_ok_iff (hproper : ∀ r ∈ ranges, kind.Proper r) :
    validateDisjoint kind owner ranges numbers = .ok () ↔
      ¬kind.Intersect ranges ∧ ¬kind.Used ranges numbers := by
  have hfind := findOverlap_sortRanges hproper
  have hsearch : sortRangesAndFindOverlap ranges kind.endInclusive =
      (sortRanges ranges, findOverlap kind.endInclusive (sortRanges ranges)) := rfl
  rw [validateDisjoint, hsearch]
  cases hoverlap : findOverlap kind.endInclusive (sortRanges ranges) with
  | some overlap =>
    rw [hoverlap] at hfind
    have hintersect : kind.Intersect ranges := by
      by_contra h
      exact absurd (hfind.mpr h) (Option.some_ne_none _)
    simp [hintersect]
  | none =>
    have hdisjoint : ¬kind.Intersect ranges := hfind.mp hoverlap
    have hsorted : ∀ r ∈ sortRanges ranges, kind.Proper r := by
      intro r hr
      exact hproper r (sortRanges_perm.mem_iff.mp hr)
    have hbefore : ((sortRanges ranges).map kind.halfOpen).Pairwise Before := by
      apply pairwise_before_of_isChain (findOverlap_eq_none_iff.mp hoverlap)
      intro r' hr'
      obtain ⟨r, hr, rfl⟩ := List.mem_map.mp hr'
      exact proper_iff.mp (hsorted r hr)
    have hnone : ∀ item ∈ numbers,
        (findContainingRange (sortRanges ranges) ((sortRanges ranges).map Prod.fst) item.1
          kind.endInclusive = none ↔ ¬∃ range ∈ ranges, kind.Holds item.1 range) := by
      intro item _
      rw [← not_iff_not, not_not, ← ne_eq, findContainingRange_ne_none_iff hsorted hbefore]
      simp only [sortRanges_perm.mem_iff]
    apply validateNumbers_ok_iff.trans
    constructor
    · intro h
      refine ⟨hdisjoint, ?_⟩
      intro ⟨item, hitem, hused⟩
      exact (hnone item hitem).mp (h item hitem) hused
    · intro ⟨_, hunused⟩ item hitem
      apply (hnone item hitem).mpr
      intro hused
      exact hunused ⟨item, hitem, hused⟩

theorem readEnumRange_eq_ok {range : Option ℤ × Option ℤ} {r : Range} :
    readEnumRange owner range = .ok r ↔ range = (some r.1, some r.2) ∧ r.1 ≤ r.2 := by
  obtain ⟨first, last⟩ := range
  cases first with
  | none => simp [readEnumRange]
  | some first =>
    cases last with
    | none => simp [readEnumRange]
    | some last =>
      rw [readEnumRange]
      split_ifs with h
      · simp only [false_iff, Prod.mk.injEq, Option.some.injEq]
        omega
      · simp only [Except.ok.injEq, Prod.ext_iff, Option.some.injEq]
        omega

/-- The ranges a message may reserve. -/
def ReservableField (range : Range) : Prop := 1 ≤ range.1 ∧ range.2 ≤ maxFieldNumber + 1

theorem readFieldRange_eq_ok {range : Range} :
    readFieldRange owner range = .ok r ↔
      range = r ∧ ReservableField r ∧ r.1 < r.2 := by
  unfold readFieldRange ReservableField
  split_ifs with h
  · simp only [false_iff, not_and]
    rintro rfl
    omega
  · rw [Except.ok.injEq]
    constructor
    · rintro rfl
      refine ⟨rfl, ?_⟩
      omega
    · exact And.left

theorem readFieldRanges_eq_ok {read : List Range} :
    ranges.mapM (readFieldRange owner) = .ok read ↔
      ranges = read ∧ ∀ r ∈ read, ReservableField r ∧ r.1 < r.2 := by
  rw [mapM_eq_ok]
  constructor
  · intro h
    induction h with
    | nil => simp
    | cons hfirst _ ih =>
      obtain ⟨rfl, hvalid⟩ := readFieldRange_eq_ok.mp hfirst
      obtain ⟨rfl, hrest⟩ := ih
      exact ⟨rfl, List.forall_mem_cons.mpr ⟨hvalid, hrest⟩⟩
  · rintro ⟨rfl, h⟩
    rw [List.forall₂_same]
    intro r hr
    exact readFieldRange_eq_ok.mpr ⟨rfl, h r hr⟩

theorem validateReservedEnumRanges_ok_iff (hproper : ∀ r ∈ ranges, r.1 ≤ r.2) :
    validateReservedEnumRanges owner (ranges.map fun r => (some r.1, some r.2)) numbers = .ok () ↔
      ¬reservedEnumValues.Intersect ranges ∧ ¬reservedEnumValues.Used ranges numbers := by
  have hread : (ranges.map fun r => (some r.1, some r.2)).mapM (readEnumRange owner) =
      .ok ranges := by
    rw [mapM_eq_ok, List.forall₂_map_left_iff, List.forall₂_same]
    intro r hr
    exact readEnumRange_eq_ok.mpr ⟨rfl, hproper r hr⟩
  rw [validateReservedEnumRanges, except_bind_of_ok hread]
  exact validateDisjoint_ok_iff hproper

theorem validateReservedFieldRanges_ok_iff (hproper : ∀ r ∈ ranges, r.1 < r.2) :
    validateReservedFieldRanges owner ranges numbers = .ok () ↔
      (∀ r ∈ ranges, ReservableField r) ∧
        ¬reservedFields.Intersect ranges ∧ ¬reservedFields.Used ranges numbers := by
  rw [← @validateDisjoint_ok_iff reservedFields owner ranges numbers hproper,
    validateReservedFieldRanges, except_bind_eq_ok]
  constructor
  · intro ⟨read, hread, hvalid⟩
    obtain ⟨rfl, hread⟩ := readFieldRanges_eq_ok.mp hread
    exact ⟨fun r hr => (hread r hr).1, hvalid⟩
  · intro ⟨hreservable, hvalid⟩
    refine ⟨ranges, readFieldRanges_eq_ok.mpr ⟨rfl, ?_⟩, hvalid⟩
    intro r hr
    exact ⟨hreservable r hr, hproper r hr⟩

def Raises (validation : Except String Unit) : Prop := ∃ message, validation = .error message

private theorem raises_iff {validation : Except String Unit} :
    Raises validation ↔ ¬validation = .ok () := by
  cases validation with
  | error message => simp [Raises]
  | ok value => simp [Raises]

private theorem used_perm {ranges' : List Range} {numbers' : List (ℤ × String)}
    (hranges : ranges.Perm ranges') (hnumbers : numbers.Perm numbers') :
    kind.Used ranges numbers ↔ kind.Used ranges' numbers' := by
  unfold ReservedKind.Used
  simp only [hranges.mem_iff, hnumbers.mem_iff]

/-- In whatever order ranges and numbers are given, they are rejected exactly where two ranges have
a number in common or a number in use is reserved; ranges of fields also where they leave the
numbers that fields may have. -/
theorem validateReservedRanges_raises_iff (owner : String) {ranges ranges' : List Range}
    {numbers numbers' : List (ℤ × String)} (hranges : ranges.Perm ranges')
    (hnumbers : numbers.Perm numbers') :
    ((∀ r ∈ ranges, r.1 ≤ r.2) →
      (Raises (validateReservedEnumRanges owner (ranges'.map fun r => (some r.1, some r.2))
          numbers') ↔
        reservedEnumValues.Intersect ranges ∨ reservedEnumValues.Used ranges numbers)) ∧
      ((∀ r ∈ ranges, r.1 < r.2) →
        (Raises (validateReservedFieldRanges owner ranges' numbers') ↔
          (∃ r ∈ ranges, ¬ReservableField r) ∨
            reservedFields.Intersect ranges ∨ reservedFields.Used ranges numbers)) := by
  constructor
  · intro hproper
    have hproper' : ∀ r ∈ ranges', r.1 ≤ r.2 := fun r hr => hproper r (hranges.mem_iff.mpr hr)
    rw [raises_iff, validateReservedEnumRanges_ok_iff hproper', intersect_perm hranges,
      used_perm hranges hnumbers]
    tauto
  · intro hproper
    have hproper' : ∀ r ∈ ranges', r.1 < r.2 := fun r hr => hproper r (hranges.mem_iff.mpr hr)
    have houtside : (∃ r ∈ ranges, ¬ReservableField r) ↔ ¬∀ r ∈ ranges', ReservableField r := by
      simp only [hranges.mem_iff, not_forall, exists_prop]
    rw [raises_iff, validateReservedFieldRanges_ok_iff hproper', intersect_perm hranges,
      used_perm hranges hnumbers, houtside]
    tauto

/-- Inclusive ranges that touch are rejected; exclusive ones are for a number in them. -/
theorem validateReservedRanges_raises_iff_sample :
    Raises (validateReservedEnumRanges "p.E" [(some 1, some 5), (some 5, some 7)] [(0, "A")]) ∧
      Raises (validateReservedFieldRanges "p.M" [(1, 5), (5, 7)] [(5, "f")]) := by
  have hswap : [((5, 7) : Range), (1, 5)].Perm [(1, 5), (5, 7)] := .swap _ _ _
  constructor
  · apply ((validateReservedRanges_raises_iff "p.E" hswap (.refl [(0, "A")])).1 (by decide)).mpr
    left
    exact ⟨0, 1, (5, 7), (1, 5), by decide, rfl, rfl, 5, by decide, by decide⟩
  · apply ((validateReservedRanges_raises_iff "p.M" hswap (.refl [(5, "f")])).2 (by decide)).mpr
    right
    right
    exact ⟨(5, "f"), List.mem_cons_self, (5, 7), List.mem_cons_self, by decide⟩

/-- Zero is no number a field may have: a range of it alone is rejected. -/
theorem validateReservedFieldRanges_outside :
    ¬∀ (owner : String) (ranges : List Range) (numbers : List (ℤ × String)),
      (∀ r ∈ ranges, r.1 < r.2) →
        (Raises (validateReservedFieldRanges owner ranges numbers) ↔
          reservedFields.Intersect ranges ∨ reservedFields.Used ranges numbers) := by
  intro h
  have hraises : Raises (validateReservedFieldRanges "p.M" [(0, 1)] []) := ⟨_, rfl⟩
  rcases (h "p.M" [(0, 1)] [] (by decide)).mp hraises with hmeet | hused
  · obtain ⟨i, j, r, s, hne, hr, hs, _⟩ := hmeet
    obtain ⟨hi, _⟩ := List.getElem?_eq_some_iff.mp hr
    obtain ⟨hj, _⟩ := List.getElem?_eq_some_iff.mp hs
    rw [List.length_singleton] at hi hj
    omega
  · obtain ⟨item, hitem, _⟩ := hused
    exact absurd hitem List.not_mem_nil

end Correctness

end Protocyte.Descriptors
