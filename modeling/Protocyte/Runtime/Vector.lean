import Protocyte.Runtime.State

/-! The growing array every container of the runtime is built on. An operation that fails leaves
the items as they were, and fails only for want of memory or room. -/
namespace Protocyte
open Foundation.Computation

/-- `Vector<T>`, by its items and the capacity of its block; `maxSize` is `max_size()`. -/
structure Vec (maxSize : ℕ) (α : Type) where
  items : List α := []
  capacity : ℕ := 0
  length_le : items.length ≤ capacity := by simp
  capacity_le : capacity ≤ maxSize := by simp

/-- `Vector<u8>`. -/
abbrev ByteVec := Vec usizeMax UInt8

namespace Vec

variable {maxSize : ℕ} {α : Type}

/-- `Vector {ctx}`. -/
def empty : Vec maxSize α := {}

instance : Inhabited (Vec maxSize α) := ⟨empty⟩

@[simp] theorem empty_items : (empty : Vec maxSize α).items = [] := rfl

abbrev size (v : Vec maxSize α) : ℕ := v.items.length

theorem size_le (v : Vec maxSize α) : v.size ≤ maxSize := Nat.le_trans v.length_le v.capacity_le

def clear : BoundM (Vec maxSize α) Unit :=
  modify fun s => { s with obj := { s.obj with items := [], length_le := Nat.zero_le _ } }

/-- `checked_mul(requested, sizeof(T))` cannot fail below `max_size()`. -/
def reserve (requested : ℕ) : BoundM (Vec maxSize α) Unit := fun s =>
  if hc : requested ≤ s.obj.capacity then
    .ok () s
  else if hm : requested > maxSize then
    .error { code := .countLimit } s
  else
    let (granted, ctx) := s.ctx.allocate
    if granted then
      .ok () { ctx, obj := { s.obj with
        capacity := requested
        length_le := Nat.le_trans s.obj.length_le (Nat.le_of_not_le hc)
        capacity_le := Nat.le_of_not_lt hm } }
    else
      .error { code := .noMemory } { s with ctx }

/-- Stores past the last item, in room already reserved. -/
def extend (values : List α) : BoundM (Vec maxSize α) Unit := fun s =>
  if h : s.obj.size + values.length ≤ s.obj.capacity then
    .ok () { s with obj := { s.obj with
      items := s.obj.items ++ values
      length_le := by rw [List.length_append]; exact h } }
  else
    .error { code := .diverged } s

def growthCapacityFor (maximum capacity requested : ℕ) : Except Error ℕ :=
  if requested > maximum then .error { code := .countLimit }
  else if requested = 0 then .ok 0
  else if capacity > maximum - capacity / 2 then .ok maximum
  else
    let geometric := capacity + capacity / 2
    .ok (if geometric < requested then requested else geometric)

/-- `push_back` and `emplace_back`. -/
def pushBack (value : α) : BoundM (Vec maxSize α) Unit := fun s =>
  if s.obj.size = s.obj.capacity then
    if s.obj.size = maxSize then .error { code := .countLimit } s
    else match checkedAdd s.obj.size 1 with
      | .error e => .error e s
      | .ok requested => match growthCapacityFor maxSize s.obj.capacity requested with
        | .error e => .error e s
        | .ok nextCapacity => (do reserve nextCapacity; extend [value]) s
  else extend [value] s

def appendTrivialRange (values : List α) : BoundM (Vec maxSize α) Unit := fun s =>
  if values.isEmpty then .ok () s
  else match checkedAdd s.obj.size values.length with
    | .error e => .error e s
    | .ok total =>
      if total > maxSize then .error { code := .countLimit } s
      else (do reserve total; extend values) s

def truncate (v : Vec maxSize α) (count : ℕ) : Vec maxSize α :=
  { v with
    items := v.items.take count
    length_le := Nat.le_trans (List.length_take_le' count v.items) v.length_le }

@[simp] theorem truncate_items (v : Vec maxSize α) (count : ℕ) :
    (v.truncate count).items = v.items.take count := rfl

/-- The items past the old end are indeterminate until they are overwritten; `fill` stands for
them. -/
def resizeForOverwrite (fill : α) (count : ℕ) : BoundM (Vec maxSize α) Unit := do
  reserve count
  if count ≤ (← get).obj.size then
    modify fun s => { s with obj := s.obj.truncate count }
  else
    extend (List.replicate (count - (← get).obj.size) fill)

/-- Stores over the items from `offset` on. -/
def overwrite (offset : ℕ) (values : List α) (v : Vec maxSize α) : Vec maxSize α :=
  { v with
    items := (v.items.take offset ++ values ++ v.items.drop (offset + values.length)).take v.size
    length_le := Nat.le_trans (List.length_take_le _ _) v.length_le }

/-- The new items are value-initialised. -/
def resizeDefault (default : α) (count : ℕ) : BoundM (Vec maxSize α) Unit := do
  let size := (← get).obj.size
  if count < size then
    modify fun s => { s with obj := s.obj.truncate count }
  else
    reserve count
    extend (List.replicate (count - size) default)

/-- `data_[index] = value`. -/
def set (index : ℕ) (value : α) (v : Vec maxSize α) : Vec maxSize α :=
  { v with
    items := v.items.set index value
    length_le := by rw [List.length_set]; exact v.length_le }

@[simp] theorem set_items (index : ℕ) (value : α) (v : Vec maxSize α) :
    (v.set index value).items = v.items.set index value := rfl

/-- Why growing to `need` items fails. -/
def Refused (s : Bound (Vec maxSize α)) (need : ℕ) (e : Error) : Prop :=
  e.code = .noMemory ∧ ¬ s.ctx.AlwaysGrants ∨ e.code = .countLimit ∧ maxSize < need ∨
    e.code = .integerOverflow ∧ usizeMax < need

theorem Refused.code {s : Bound (Vec maxSize α)} {need : ℕ} {e : Error} (h : Refused s need e) :
    e.code ∈ [.noMemory, .countLimit, .integerOverflow] := by
  rcases h with ⟨h, -⟩ | ⟨h, -⟩ | ⟨h, -⟩ <;> simp [h]

theorem Refused.not_alwaysGrants {s : Bound (Vec maxSize α)} {need : ℕ} {e : Error}
    (h : Refused s need e) (hn : need ≤ maxSize) (hu : need ≤ usizeMax) :
    e.code = .noMemory ∧ ¬ s.ctx.AlwaysGrants := by
  rcases h with h | ⟨-, h⟩ | ⟨-, h⟩
  · exact h
  · omega
  · omega

theorem reserve_exits (n : ℕ) (s : Bound (Vec maxSize α)) : Exits (reserve n s)
    (fun _ s' => s.ctx.Spent s'.ctx ∧ s'.obj.items = s.obj.items ∧ n ≤ s'.obj.capacity)
    (fun e s' => s.ctx.Spent s'.ctx ∧ s'.obj = s.obj ∧
      (e.code = .noMemory ∧ ¬ s.ctx.AlwaysGrants ∨ e.code = .countLimit ∧ maxSize < n)) := by
  unfold reserve
  by_cases hc : n ≤ s.obj.capacity
  · rw [dif_pos hc]
    exact ⟨.refl _, rfl, hc⟩
  rw [dif_neg hc]
  by_cases hm : n > maxSize
  · rw [dif_pos hm]
    exact ⟨.refl _, rfl, Or.inr ⟨rfl, hm⟩⟩
  rw [dif_neg hm]
  cases hg : s.ctx.grants 0 with
  | true =>
    simp only [Context.allocate, hg, if_true]
    exact ⟨⟨1, rfl⟩, rfl, Nat.le_refl n⟩
  | false =>
    simp only [Context.allocate, hg, Bool.false_eq_true, if_false]
    exact ⟨⟨1, rfl⟩, rfl, Or.inl ⟨rfl, fun h => by simp [h 0] at hg⟩⟩

theorem reserve_of_le {n : ℕ} {s : Bound (Vec maxSize α)} (h : n ≤ s.obj.capacity) :
    reserve n s = .ok () s := by
  rw [reserve, dif_pos h]

theorem extend_exits {values : List α} {s : Bound (Vec maxSize α)}
    (h : s.obj.size + values.length ≤ s.obj.capacity) : Exits (extend values s)
    (fun _ s' => s'.ctx = s.ctx ∧ s'.obj.items = s.obj.items ++ values) (fun _ _ => False) := by
  unfold extend
  rw [dif_pos h]
  exact ⟨rfl, rfl⟩

theorem reserve_extend_exits (n : ℕ) (values : List α) (s : Bound (Vec maxSize α))
    (h : s.obj.size + values.length ≤ n) : Exits ((do reserve n; extend values) s)
    (fun _ s' => s.ctx.Spent s'.ctx ∧ s'.obj.items = s.obj.items ++ values)
    (fun e s' => s.ctx.Spent s'.ctx ∧ s'.obj = s.obj ∧
      (e.code = .noMemory ∧ ¬ s.ctx.AlwaysGrants ∨ e.code = .countLimit ∧ maxSize < n)) := by
  refine Exits.bind (reserve_exits n s) fun _ t ⟨hs, hi, hn⟩ => ?_
  have hroom : t.obj.size + values.length ≤ t.obj.capacity := by
    simp only [size, hi] at h ⊢
    omega
  refine (extend_exits hroom).mono (fun _ s' ⟨hc, hv⟩ => ?_) (fun _ _ hf => hf.elim)
  exact ⟨hc ▸ hs, by rw [hv, hi]⟩

private theorem growthCapacityFor_of_le {maximum requested : ℕ} (capacity : ℕ)
    (hr : requested ≤ maximum) (hpos : 0 < requested) :
    ∃ next, growthCapacityFor maximum capacity requested = .ok next ∧ requested ≤ next ∧
      next ≤ maximum := by
  unfold growthCapacityFor
  rw [if_neg (by omega), if_neg (by omega)]
  by_cases hc : capacity > maximum - capacity / 2
  · rw [if_pos hc]
    exact ⟨maximum, rfl, hr, Nat.le_refl _⟩
  · rw [if_neg hc]
    by_cases hg : capacity + capacity / 2 < requested
    · exact ⟨requested, by simp only [if_pos hg], Nat.le_refl _, hr⟩
    · exact ⟨capacity + capacity / 2, by simp only [if_neg hg], by omega, by omega⟩

theorem pushBack_exits (hmax : maxSize ≤ usizeMax) (value : α) (s : Bound (Vec maxSize α)) :
    Exits (pushBack value s)
      (fun _ s' => s.ctx.Spent s'.ctx ∧ s'.obj.items = s.obj.items ++ [value])
      (fun e s' => s.ctx.Spent s'.ctx ∧ s'.obj = s.obj ∧ Refused s (s.obj.size + 1) e) := by
  have hsize := s.obj.size_le
  have hlen := s.obj.length_le
  unfold pushBack
  by_cases hfull : s.obj.size = s.obj.capacity
  · rw [if_pos hfull]
    by_cases hm : s.obj.size = maxSize
    · rw [if_pos hm]
      exact ⟨.refl _, rfl, Or.inr (Or.inl ⟨rfl, by omega⟩)⟩
    rw [if_neg hm]
    obtain ⟨next, hnext, hle, hmaxn⟩ :=
      growthCapacityFor_of_le s.obj.capacity (by omega : s.obj.size + 1 ≤ maxSize) (by omega)
    simp only [checkedAdd_of_le (Nat.le_trans (by omega : s.obj.size + 1 ≤ maxSize) hmax), hnext]
    refine (reserve_extend_exits next [value] s hle).mono (fun _ _ h => h) ?_
    rintro e s' ⟨hs, ho, hr | ⟨-, hr⟩⟩
    · exact ⟨hs, ho, Or.inl hr⟩
    · omega
  · rw [if_neg hfull]
    refine (extend_exits ?_).mono ?_ (fun _ _ hf => hf.elim)
    · have : s.obj.size ≠ s.obj.capacity := hfull
      simp only [size, List.length_singleton] at this ⊢
      omega
    · rintro _ s' ⟨hc, hi⟩
      exact ⟨hc ▸ .refl _, hi⟩

theorem appendTrivialRange_exits {values : List α} (hv : values.length ≤ usizeMax)
    (hmax : maxSize ≤ usizeMax) (s : Bound (Vec maxSize α)) :
    Exits (appendTrivialRange values s)
      (fun _ s' => s.ctx.Spent s'.ctx ∧ s'.obj.items = s.obj.items ++ values)
      (fun e s' => s.ctx.Spent s'.ctx ∧ s'.obj = s.obj ∧
        Refused s (s.obj.size + values.length) e) := by
  unfold appendTrivialRange
  cases values with
  | nil => exact ⟨.refl _, by simp⟩
  | cons b bs =>
    simp only [List.isEmpty_cons, Bool.false_eq_true, if_false]
    by_cases hu : s.obj.size + (b :: bs).length ≤ usizeMax
    · rw [checkedAdd_of_le hu]
      simp only
      by_cases hm : s.obj.size + (b :: bs).length > maxSize
      · rw [if_pos hm]
        exact ⟨.refl _, rfl, Or.inr (Or.inl ⟨rfl, hm⟩)⟩
      · rw [if_neg hm]
        refine (reserve_extend_exits _ (b :: bs) s (Nat.le_refl _)).mono (fun _ _ h => h) ?_
        rintro e s' ⟨hs, ho, hr | hr⟩
        · exact ⟨hs, ho, Or.inl hr⟩
        · exact ⟨hs, ho, Or.inr (Or.inl hr)⟩
    · rw [checkedAdd_of_gt (Nat.le_trans s.obj.size_le hmax) hv (Nat.lt_of_not_le hu)]
      exact ⟨.refl _, rfl, Or.inr (Or.inr ⟨rfl, Nat.lt_of_not_le hu⟩)⟩

theorem resizeForOverwrite_shrink (fill : α) {n : ℕ} {s : Bound (Vec maxSize α)}
    (h : n ≤ s.obj.size) :
    resizeForOverwrite fill n s = .ok () { s with obj := s.obj.truncate n } := by
  rw [resizeForOverwrite, bind_of_ok (reserve_of_le (Nat.le_trans h s.obj.length_le)), bind_apply]
  simp only [get_apply, if_pos h]
  rfl

theorem resizeForOverwrite_exits (fill : α) (n : ℕ) (s : Bound (Vec maxSize α)) :
    Exits (resizeForOverwrite fill n s)
      (fun _ s' => s.ctx.Spent s'.ctx ∧
        s'.obj.items = s.obj.items.take n ++ List.replicate (n - s.obj.size) fill)
      (fun e s' => s.ctx.Spent s'.ctx ∧ s'.obj = s.obj ∧ Refused s n e) := by
  unfold resizeForOverwrite
  refine Exits.bind ((reserve_exits n s).mono (fun _ _ h => h) ?_) fun _ t ⟨hs, hi, hn⟩ => ?_
  · rintro e s' ⟨hs, ho, hr | hr⟩
    · exact ⟨hs, ho, Or.inl hr⟩
    · exact ⟨hs, ho, Or.inr (Or.inl hr)⟩
  have hsize : t.obj.size = s.obj.size := congrArg List.length hi
  refine Exits.bind (Q := fun a t' => a = t ∧ t' = t) ⟨rfl, rfl⟩ ?_
  rintro _ _ ⟨rfl, rfl⟩
  refine Exits.ite (fun hle => ?_) (fun hle => ?_)
  · refine ⟨hs, ?_⟩
    rw [truncate_items, hi, Nat.sub_eq_zero_of_le (hsize ▸ hle), List.replicate_zero,
      List.append_nil]
  · refine Exits.bind (Q := fun a t' => a = _ ∧ t' = _) ⟨rfl, rfl⟩ ?_
    rintro _ _ ⟨rfl, rfl⟩
    refine (extend_exits ?_).mono ?_ (fun _ _ hf => hf.elim)
    · rw [List.length_replicate]
      have := hsize
      omega
    · rintro _ s' ⟨hc, hv⟩
      refine ⟨hc ▸ hs, ?_⟩
      rw [hv, hi, hsize, List.take_of_length_le]
      rw [hsize] at hle
      exact Nat.le_of_not_le hle

theorem ext_items {v w : Vec maxSize α} (hitems : v.items = w.items)
    (hcapacity : v.capacity = w.capacity) : v = w := by
  cases v
  cases w
  cases hitems
  cases hcapacity
  rfl

theorem overwrite_items {v : Vec maxSize α} {offset : ℕ} {values : List α}
    (h : offset + values.length ≤ v.size) : (v.overwrite offset values).items =
      v.items.take offset ++ values ++ v.items.drop (offset + values.length) := by
  unfold overwrite
  apply List.take_of_length_le
  rw [List.length_append, List.length_append, List.length_take, List.length_drop]
  have hsize : v.size = v.items.length := rfl
  omega

/-- Storing the first value and then the others is storing them all. -/
theorem overwrite_set {v : Vec maxSize α} {offset : ℕ} {value : α}
    {values : List α} (h : offset + (value :: values).length ≤ v.size) :
    (v.set offset value).overwrite (offset + 1) values = v.overwrite offset (value :: values) := by
  rw [List.length_cons] at h
  have hsize : (v.set offset value).size = v.size := by
    show (v.items.set offset value).length = v.items.length
    rw [List.length_set]
  apply ext_items
  · rw [overwrite_items (by omega), overwrite_items (by rw [List.length_cons]; omega), set_items]
    have hlt : offset < v.items.length := by
      have hdef : v.size = v.items.length := rfl
      omega
    have htake : (v.items.set offset value).take (offset + 1) = v.items.take offset ++ [value] := by
      have hlength : (v.items.take offset).length = offset := by
        rw [List.length_take]
        omega
      rw [List.take_set, ← List.take_append_getElem hlt, List.set_append_right _ _ hlength.le,
        hlength, Nat.sub_self]
      rfl
    have hdrop : (v.items.set offset value).drop (offset + 1 + values.length) =
        v.items.drop (offset + (value :: values).length) := by
      rw [List.drop_set_of_lt (by omega), List.length_cons]
      congr 1
      omega
    rw [htake, hdrop, List.append_assoc (v.items.take offset), List.singleton_append]
  · rfl

theorem overwrite_nil (v : Vec maxSize α) (offset : ℕ) :
    v.overwrite offset [] = v := by
  apply ext_items
  · unfold overwrite
    simp only [List.append_nil, List.length_nil, Nat.add_zero, List.take_append_drop,
      List.take_length]
  · rfl

/-- The vector has or gets a block for `need` items. -/
def HasRoom (s : Bound (Vec maxSize α)) (need : ℕ) : Prop :=
  need ≤ s.obj.capacity ∨ need ≤ maxSize ∧ s.ctx.grants 0 = true

theorem reserve_eq_ok_iff (s : Bound (Vec maxSize α)) (need : ℕ) :
    (∃ s', reserve need s = .ok () s') ↔ HasRoom s need := by
  unfold reserve HasRoom
  by_cases hcapacity : need ≤ s.obj.capacity
  · rw [dif_pos hcapacity]
    simp [hcapacity]
  rw [dif_neg hcapacity]
  by_cases hmax : need > maxSize
  · rw [dif_pos hmax]
    simp [hcapacity, Nat.not_le.mpr hmax]
  rw [dif_neg hmax]
  cases hg : s.ctx.grants 0 with
  | true => simp [Context.allocate, hg, Nat.le_of_not_lt hmax]
  | false => simp [Context.allocate, hg, hcapacity]

theorem resizeForOverwrite_eq_ok_iff (fill : α)
    (s : Bound (Vec maxSize α)) (need : ℕ) :
    (∃ s', resizeForOverwrite fill need s = .ok () s') ↔ HasRoom s need := by
  rw [← reserve_eq_ok_iff]
  constructor
  · rintro ⟨s', h⟩
    obtain ⟨⟨⟩, s₁, hreserve, -⟩ := bind_eq_ok.mp h
    exact ⟨s₁, hreserve⟩
  · rintro ⟨s₁, hreserve⟩
    have hcapacity := ((reserve_exits need s).ok hreserve).2.2
    unfold resizeForOverwrite
    rw [bind_of_ok hreserve, bind_of_ok (get_apply s₁)]
    by_cases hle : need ≤ s₁.obj.size
    · rw [if_pos hle]
      exact ⟨_, rfl⟩
    · rw [if_neg hle, bind_of_ok (get_apply s₁)]
      have hroom : s₁.obj.size + (List.replicate (need - s₁.obj.size) fill).length ≤
          s₁.obj.capacity := by
        rw [List.length_replicate]
        omega
      unfold extend
      rw [dif_pos hroom]
      exact ⟨_, rfl⟩

theorem resizeDefault_exits (default : α) {n : ℕ} {s : Bound (Vec maxSize α)}
    (h : s.obj.items = []) : Exits (resizeDefault default n s)
      (fun _ s' => s.ctx.Spent s'.ctx ∧ s'.obj.items = List.replicate n default)
      (fun e s' => s.ctx.Spent s'.ctx ∧ s'.obj = s.obj ∧ Refused s n e) := by
  have hsize : s.obj.size = 0 := by rw [size, h]; rfl
  unfold resizeDefault
  rw [bind_of_ok (get_apply s)]
  simp only [hsize, Nat.not_lt_zero, if_false, Nat.sub_zero]
  refine (reserve_extend_exits n (List.replicate n default) s (by simp [hsize])).mono ?_ ?_
  · rintro - s' ⟨hs, hi⟩
    exact ⟨hs, by rw [hi, h, List.nil_append]⟩
  · rintro e s' ⟨hs, ho, hr | hr⟩
    · exact ⟨hs, ho, Or.inl hr⟩
    · exact ⟨hs, ho, Or.inr (Or.inl hr)⟩

/-- `assign`, and `copy_from` for trivially copyable items. -/
def assign (values : List α) : BoundM (Vec maxSize α) Unit :=
  fun s =>
    if values.length > maxSize then .error { code := .countLimit } s
    else (do
      let (_, temp) ← onTemporary (empty : Vec maxSize α) (do reserve values.length; extend values)
      moveAssign temp) s

theorem assign_exits (values : List α) (s : Bound (Vec maxSize α)) : Exits (assign values s)
    (fun _ s' => s.ctx.Spent s'.ctx ∧ s'.obj.items = values)
    (fun e s' => s.ctx.Spent s'.ctx ∧ s'.obj = s.obj ∧
      (e.code = .noMemory ∧ ¬ s.ctx.AlwaysGrants ∨ e.code = .countLimit ∧ maxSize < values.length)) := by
  unfold assign
  by_cases hm : values.length > maxSize
  · rw [if_pos hm]
    exact ⟨.refl _, rfl, Or.inr ⟨rfl, hm⟩⟩
  rw [if_neg hm]
  have ht := onTemporary_exits (s := s)
    (reserve_extend_exits values.length values { ctx := s.ctx, obj := (empty : Vec maxSize α) }
      (by simp [size]))
  refine Exits.bind (ht.mono (fun _ _ h => h) ?_) ?_
  · rintro e s' ⟨⟨t, hs, -, he⟩, ho⟩
    exact ⟨hs, ho, he⟩
  · rintro ⟨⟨⟩, temp⟩ s' ⟨⟨hs, hi⟩, -⟩
    exact ⟨hs, by simpa using hi⟩

end Vec
end Protocyte
