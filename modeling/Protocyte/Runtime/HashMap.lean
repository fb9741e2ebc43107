import Protocyte.Foundation.OpenAddressing
import Protocyte.Runtime.Vector

/-! The hash map: a power of two of buckets, filled to less than seven tenths. The walk from a
key's home bucket ends at the key or at an empty bucket. -/
namespace Protocyte
open Foundation.Computation Foundation.OpenAddressing

/-- `Config::hash` and `Config::equal` of a key type. -/
class MapKey (K : Type) where
  hash : K → UInt64
  equal : K → K → Bool

/-- A hash compatible with the key equality. -/
class LawfulMapKey (K : Type) [MapKey K] : Prop where
  refl (a : K) : MapKey.equal a a = true
  symm {a b : K} : MapKey.equal a b = true → MapKey.equal b a = true
  trans {a b c : K} : MapKey.equal a b = true → MapKey.equal b c = true → MapKey.equal a c = true
  hash_eq {a b : K} : MapKey.equal a b = true → MapKey.hash a = MapKey.hash b

/-- What copying and moving do to a value: `compatible` is `CopyValueCompatible`, and `movedFrom`
is what a move leaves behind. -/
class CopyValue (α : Type) where
  compatible : Bool := true
  copyValue : α → EStateM Error Context α
  movedFrom : α → α := id

class LawfulCopyValue (α : Type) [CopyValue α] : Prop where
  copyValue_exits (a : α) (ctx : Context) : Exits (CopyValue.copyValue a ctx)
    (fun b ctx' => b = a ∧ ctx.Spent ctx') (fun e ctx' => ctx.Spent ctx' ∧ e.code ≠ .diverged)

def fnv1a (view : List UInt8) : UInt64 :=
  view.foldl (fun hash byte => (hash ^^^ byte.toUInt64) * 1099511628211) 1469598103934665603

/-- Strings and byte strings, by their view. -/
instance : MapKey (List UInt8) := ⟨fnv1a, fun a b => a == b⟩

instance : LawfulMapKey (List UInt8) where
  refl a := beq_self_eq_true a
  symm h := by
    rw [eq_of_beq h]
    exact beq_self_eq_true _
  trans h h' := by
    rw [eq_of_beq h]
    exact h'
  hash_eq h := by rw [eq_of_beq h]

/-- A copy of bytes takes a block unless there are none. -/
def copyBytesValue (bytes : List UInt8) : EStateM Error Context (List UInt8) := fun ctx =>
  if bytes.isEmpty then .ok bytes ctx
  else if bytes.length > usizeMax then .error { code := .countLimit } ctx
  else
    let (granted, ctx) := ctx.allocate
    if granted then .ok bytes ctx else .error { code := .noMemory } ctx

instance : CopyValue (List UInt8) where
  copyValue := copyBytesValue
  movedFrom _ := []

instance : LawfulCopyValue (List UInt8) where
  copyValue_exits bytes ctx := by
    change Exits (copyBytesValue bytes ctx) _ _
    unfold copyBytesValue
    split
    · exact ⟨rfl, .refl _⟩
    split
    · exact ⟨.refl _, fun h => by cases h⟩
    cases hg : ctx.grants 0 with
    | true =>
      simp only [Context.allocate, hg, if_true]
      exact ⟨rfl, ctx.spent_allocate⟩
    | false =>
      simp only [Context.allocate, hg, Bool.false_eq_true, if_false]
      exact ⟨ctx.spent_allocate, fun h => by cases h⟩

/-- `maxBuckets` is the `max_size()` of a vector of buckets. -/
structure HashMap (maxBuckets : ℕ) (K V : Type) where
  buckets : Vec maxBuckets (Option (K × V)) := .empty
  size : ℕ := 0

namespace HashMap
open MapKey (hash equal)
open CopyValue (copyValue movedFrom compatible)

variable {maxBuckets : ℕ} {K V : Type} [MapKey K]

/-- `HashMap {ctx}`. -/
def empty : HashMap maxBuckets K V := {}

instance : Inhabited (HashMap maxBuckets K V) := ⟨empty⟩

abbrev bucketCount (m : HashMap maxBuckets K V) : ℕ := m.buckets.size

/-- What iteration yields. -/
def entries (m : HashMap maxBuckets K V) : List (K × V) := m.buckets.items.reduceOption

/-- `max_size()` -/
def maxSize (maxBuckets : ℕ) : ℕ := maxBuckets / 2

def clear (m : HashMap maxBuckets K V) : HashMap maxBuckets K V :=
  { buckets := { m.buckets with
      items := m.buckets.items.map fun _ => none
      length_le := by rw [List.length_map]; exact m.buckets.length_le }
    size := 0 }

/-- The doubling of `desired`; it exceeds the address space before the bound runs out. -/
def bucketCountForLoop (maxBuckets target : ℕ) : ℕ → ℕ → Except Error ℕ
  | 0, _ => throw { code := .diverged }
  | n + 1, desired =>
    if desired < target then
      if desired > maxBuckets / 2 then throw { code := .countLimit }
      else bucketCountForLoop maxBuckets target n (desired * 2)
    else return desired

def bucketCountFor (maxBuckets count : ℕ) : Except Error ℕ :=
  if count > maxSize maxBuckets then throw { code := .countLimit }
  else bucketCountForLoop maxBuckets (count * 2) 64 8

def rehashThresholdFor (bucketCount : ℕ) : ℕ :=
  bucketCount - (bucketCount / 10 * 3 + bucketCount % 10 * 3 / 10)

/-- A count of 0 stands for room in the table there is. -/
def bucketCountForOneMore (m : HashMap maxBuckets K V) : Except Error ℕ := do
  let nextSize ← checkedAdd m.size 1
  if nextSize > maxSize maxBuckets then throw { code := .countLimit }
  else if m.bucketCount = 0 ∨ nextSize ≥ rehashThresholdFor m.bucketCount then
    bucketCountFor maxBuckets nextSize
  else return 0

/-- The walk of both probe loops; a walk that is round would go on forever. -/
def walk (m : HashMap maxBuckets K V) (key : K) (stop : Option (K × V) → Bool) : Option ℕ :=
  Foundation.OpenAddressing.probe stop (fun i => (i + 1) &&& (m.bucketCount - 1)) m.buckets.items
    m.bucketCount
    ((hash key).toNat &&& (m.bucketCount - 1))

/-- Where the loop of `insert_or_assign_impl` ends: at an empty bucket or a matching one. -/
def matching (key : K) : Option (K × V) → Bool
  | none => true
  | some entry => equal entry.1 key

def setBucket (m : HashMap maxBuckets K V) (i : ℕ) (entry : K × V) : HashMap maxBuckets K V :=
  { m with buckets := m.buckets.set i (some entry) }

def insertWithoutRehash (key : K) (value : V) (m : HashMap maxBuckets K V) :
    Except Error (HashMap maxBuckets K V) :=
  match m.walk key Option.isNone with
  | none => throw { code := .diverged }
  | some i => return { m.setBucket i (key, value) with size := m.size + 1 }

/-- The live buckets are moved one after the other. -/
def insertAll (buckets : List (Option (K × V))) (m : HashMap maxBuckets K V) :
    Except Error (HashMap maxBuckets K V) :=
  buckets.reduceOption.foldlM (fun m entry => insertWithoutRehash entry.1 entry.2 m) m

/-- The pending entry goes first, while arguments that alias live buckets still hold. -/
def rehashAndInsert (bucketCount : ℕ) (key : K) (value : V) :
    BoundM (HashMap maxBuckets K V) Unit := do
  let live := (← get).obj.buckets.items
  let (_, buckets) ← onTemporary (Vec.empty : Vec maxBuckets (Option (K × V)))
    (Vec.resizeDefault none bucketCount)
  let next ← ofExcept (insertWithoutRehash key value { buckets })
  let next ← ofExcept (insertAll live next)
  moveAssign next

variable [CopyValue K] [CopyValue V]

/-- A copy made by the map in its own context. -/
def copying {α : Type} [CopyValue α] (a : α) : BoundM (HashMap maxBuckets K V) α := fun s =>
  match copyValue a s.ctx with
  | .ok b ctx => .ok b { s with ctx }
  | .error e ctx => .error e { s with ctx }

def insertNew (key : K) (value : V) : BoundM (HashMap maxBuckets K V) Unit := do
  let m := (← get).obj
  let nextBucketCount ← ofExcept (bucketCountForOneMore m)
  if nextBucketCount ≠ 0 then
    rehashAndInsert nextBucketCount key value
  else
    let next ← ofExcept (insertWithoutRehash key value m)
    moveAssign next

/-- `withinKey`: the mapped argument begins within the storage of the matched key. The matched
bucket keeps its own key. -/
def insertOrAssignImpl (key : K) (value : V) (withinKey : Bool) :
    BoundM (HashMap maxBuckets K V) Unit := do
  let m := (← get).obj
  if m.bucketCount = 0 then
    insertNew key value
  else
    match m.walk key (matching key) with
    | none => throw { code := .diverged }
    | some i =>
      match m.buckets.items[i]? with
      | some (some entry) =>
        if withinKey then
          if compatible V then
            let copied ← copying value
            moveAssign (m.setBucket i (entry.1, copied))
          else
            throw { code := .invalidArgument }
        else
          moveAssign (m.setBucket i (entry.1, value))
      | _ => insertNew key value

def passing {α : Type} [CopyValue α] (copy : Bool) (a : α) : BoundM (HashMap maxBuckets K V) α :=
  if copy then copying a else pure a

/-- The overloads of `insert_or_assign` differ in which arguments they copy with `copy_value`. -/
def insertOrAssign (copyKey copyMapped : Bool) (key : K) (value : V) (withinKey : Bool) :
    BoundM (HashMap maxBuckets K V) Unit := do
  let key ← passing copyKey key
  let value ← passing copyMapped value
  insertOrAssignImpl key value withinKey

/-- The loop of `reserve` moves live entries into `next`; a failure would leave the moved ones
behind. -/
def reserveLoop : ℕ → ℕ → HashMap maxBuckets K V → BoundM (HashMap maxBuckets K V) Unit
  | 0, _, next => moveAssign next
  | n + 1, i, next => fun s =>
    match s.obj.buckets.items[i]? with
    | some (some (key, value)) =>
      let moved := s.obj.setBucket i (movedFrom key, movedFrom value)
      match insertOrAssign false false key value false { ctx := s.ctx, obj := next } with
      | .ok _ t => reserveLoop n (i + 1) t.obj { ctx := t.ctx, obj := moved }
      | .error e t => .error e { ctx := t.ctx, obj := moved }
    | _ => reserveLoop n (i + 1) next s

def reserve (count : ℕ) : BoundM (HashMap maxBuckets K V) Unit := do
  let m := (← get).obj
  let desired ← ofExcept (bucketCountFor maxBuckets count)
  if desired ≤ m.bucketCount then
    return ()
  else
    let (_, buckets) ← onTemporary (Vec.empty : Vec maxBuckets (Option (K × V)))
      (Vec.resizeDefault none desired)
    reserveLoop m.bucketCount 0 { buckets }

def copyLoop : List (K × V) → BoundM (HashMap maxBuckets K V) Unit
  | [] => return ()
  | (key, value) :: rest => do
    let copiedKey ← copying key
    let copiedValue ← copying value
    insertOrAssign false false copiedKey copiedValue false
    copyLoop rest

/-- `this == &other` is `sameObject`. -/
def copyFrom (other : HashMap maxBuckets K V) (sameObject : Bool) :
    BoundM (HashMap maxBuckets K V) Unit := do
  let m := (← get).obj
  if sameObject then
    return ()
  else if other.size = 0 then
    moveAssign m.clear
  else
    let minimumBucketCount ← ofExcept (bucketCountFor maxBuckets other.size)
    let targetBucketCount := max m.bucketCount minimumBucketCount
    let (_, buckets) ← onTemporary (Vec.empty : Vec maxBuckets (Option (K × V)))
      (Vec.resizeDefault none targetBucketCount)
    let (_, temp) ← onTemporary ({ buckets } : HashMap maxBuckets K V) (copyLoop other.entries)
    moveAssign temp

section
variable {K V : Type} [MapKey K] {m m' : HashMap maxBuckets K V}

def home (entry : K × V) : ℕ := (hash entry.1).toNat

def SameKey (e f : K × V) : Prop := equal e.1 f.1 = true

/-- A table there is, without regard to how full it is. -/
structure Arranged (m : HashMap maxBuckets K V) : Prop where
  power : ∃ k, 3 ≤ k ∧ m.bucketCount = 2 ^ k
  size_eq : m.size = load m.buckets.items
  distinct : Distinct SameKey m.buckets.items
  chained : Chained home m.buckets.items

structure WellFormed (m : HashMap maxBuckets K V) : Prop where
  power : m.bucketCount = 0 ∨ ∃ k, 3 ≤ k ∧ m.bucketCount = 2 ^ k
  size_eq : m.size = load m.buckets.items
  size_le : m.size ≤ maxSize maxBuckets
  below : m.bucketCount ≠ 0 → m.size < rehashThresholdFor m.bucketCount
  distinct : Distinct SameKey m.buckets.items
  chained : Chained home m.buckets.items

theorem rehashThresholdFor_le (b : ℕ) : rehashThresholdFor b ≤ b := Nat.sub_le _ _

theorem lt_rehashThresholdFor {n b : ℕ} (h : n * 2 ≤ b) (hb : 8 ≤ b) :
    n < rehashThresholdFor b := by
  unfold rehashThresholdFor
  omega

theorem rehashThresholdFor_mono {a b : ℕ} (h : a ≤ b) :
    rehashThresholdFor a ≤ rehashThresholdFor b := by
  unfold rehashThresholdFor
  omega

theorem eight_le_pow {k : ℕ} (h : 3 ≤ k) : 8 ≤ 2 ^ k :=
  Nat.pow_le_pow_right (by decide : 0 < 2) h

theorem Arranged.eight_le (h : m.Arranged) : 8 ≤ m.bucketCount := by
  obtain ⟨k, hk, hc⟩ := h.power
  rw [hc]
  exact eight_le_pow hk

theorem WellFormed.arranged (h : m.WellFormed) (hc : m.bucketCount ≠ 0) : m.Arranged :=
  ⟨h.power.resolve_left hc, h.size_eq, h.distinct, h.chained⟩

theorem Arranged.wellFormed (h : m.Arranged) (hb : m.size < rehashThresholdFor m.bucketCount)
    (hs : m.size ≤ maxSize maxBuckets) : m.WellFormed :=
  ⟨Or.inr h.power, h.size_eq, hs, fun _ => hb, h.distinct, h.chained⟩

theorem Arranged.load_lt (h : m.Arranged) (hb : m.size < rehashThresholdFor m.bucketCount) :
    load m.buckets.items < m.bucketCount :=
  h.size_eq ▸ Nat.lt_of_lt_of_le hb (rehashThresholdFor_le _)

omit [MapKey K] in
theorem entries_of_bucketCount (hc : m.bucketCount = 0) : m.entries = [] := by
  rw [entries, List.length_eq_zero_iff.mp hc]
  rfl

/-- A table of empty buckets. -/
theorem arranged_replicate {b : Vec maxBuckets (Option (K × V))} {c : ℕ}
    (hb : b.items = List.replicate c none) (hc : ∃ k, 3 ≤ k ∧ c = 2 ^ k) :
    Arranged { buckets := b } ∧ ({ buckets := b } : HashMap maxBuckets K V).bucketCount = c ∧
      ({ buckets := b } : HashMap maxBuckets K V).entries = [] := by
  have hnone : ∀ (i : ℕ) (e : K × V), ¬ b.items[i]? = some (some e) := by
    intro i e he
    have hmem := List.mem_of_getElem? he
    rw [hb, List.mem_replicate] at hmem
    cases hmem.2
  have hcount : ({ buckets := b } : HashMap maxBuckets K V).bucketCount = c := by
    simp [bucketCount, Vec.size, hb]
  refine ⟨⟨?_, ?_, fun i j e f hi => absurd hi (hnone i e), fun i e hi => absurd hi (hnone i e)⟩,
    hcount, ?_⟩
  · rw [hcount]
    exact hc
  · simp [load, hb, List.countP_replicate]
  · refine List.eq_nil_iff_forall_not_mem.mpr fun e he => ?_
    obtain ⟨i, hi⟩ := mem_reduceOption.mp he
    exact hnone i e hi

theorem walk_eq (hp : ∃ k, 3 ≤ k ∧ m.bucketCount = 2 ^ k) {key : K}
    {stop : Option (K × V) → Bool} {n : ℕ} {slot : Option (K × V)} (hn : n < m.bucketCount)
    (hs : m.buckets.items[visit m.buckets.items (hash key).toNat n]? = some slot)
    (hstop : stop slot = true)
    (hgo : ∀ d < n, ∃ slot, m.buckets.items[visit m.buckets.items (hash key).toNat d]? = some slot ∧
      stop slot = false) :
    m.walk key stop = some (visit m.buckets.items (hash key).toNat n) := by
  obtain ⟨k, hk, hc⟩ := hp
  have hmask : ∀ i, i &&& (m.bucketCount - 1) = i % m.bucketCount := by
    intro i
    rw [hc, Nat.and_two_pow_sub_one_eq_mod]
  have hstart : (hash key).toNat &&& (m.bucketCount - 1) =
      visit m.buckets.items (hash key).toNat 0 := hmask _
  unfold walk
  rw [hstart]
  exact probe_eq (fun i _ => hmask (i + 1)) hs hstop hgo hn

/-- The walk for an empty bucket ends at one. -/
theorem Arranged.walk_vacant (h : m.Arranged) (hl : load m.buckets.items < m.bucketCount)
    (key : K) : ∃ i, m.walk key Option.isNone = some i ∧ Vacant m.buckets.items i := by
  obtain ⟨n, hn, hvacant, hfilled⟩ := exists_first_vacant hl (hash key).toNat
  refine ⟨_, walk_eq h.power hn hvacant rfl fun d hd => ?_, hvacant⟩
  obtain ⟨e, he⟩ := hfilled d hd
  exact ⟨some e, he, rfl⟩

/-- Where the walk for a key ends, the bucket is empty and the key is not in the map, or the
bucket holds the key. -/
theorem Arranged.walk_matching [LawfulMapKey K] (h : m.Arranged)
    (hl : load m.buckets.items < m.bucketCount) (key : K) :
    ∃ i, m.walk key (matching key) = some i ∧
      (Vacant m.buckets.items i ∧ (∀ e ∈ m.entries, equal e.1 key = false) ∨
        ∃ e, m.buckets.items[i]? = some (some e) ∧ equal e.1 key = true) := by
  classical
  obtain ⟨n, hn, hempty, hfilled⟩ := exists_first_vacant hl (hash key).toNat
  have hex : ∃ d slot, m.buckets.items[visit m.buckets.items (hash key).toNat d]? = some slot ∧
      matching key slot = true := ⟨n, none, hempty, rfl⟩
  have hle : Nat.find hex ≤ n := Nat.find_le ⟨none, hempty, rfl⟩
  obtain ⟨slot, hslot, hmatch⟩ := Nat.find_spec hex
  have hgo : ∀ d < Nat.find hex, ∃ slot,
      m.buckets.items[visit m.buckets.items (hash key).toNat d]? = some slot ∧
        matching key slot = false := by
    intro d hd
    obtain ⟨e, he⟩ := hfilled d (by omega)
    refine ⟨some e, he, ?_⟩
    have := Nat.find_min hex hd
    simpa [he] using this
  refine ⟨_, walk_eq h.power (Nat.lt_of_le_of_lt hle hn) hslot hmatch hgo, ?_⟩
  cases slot with
  | some e => exact Or.inr ⟨e, hslot, hmatch⟩
  | none =>
    refine Or.inl ⟨hslot, fun e he => ?_⟩
    obtain ⟨i, hi⟩ := mem_reduceOption.mp he
    by_contra hne
    have heq : equal e.1 key = true := by simpa using hne
    have hhome : home e = (hash key).toNat := by rw [home, LawfulMapKey.hash_eq heq]
    obtain ⟨d, hd, hv⟩ := h.chained.met hi (by rw [hhome]; exact hslot)
    obtain ⟨slot', hs', hm'⟩ := hgo d hd
    rw [← hhome, hv, hi] at hs'
    cases hs'
    rw [matching, heq] at hm'
    cases hm'

/-- The entry with the key, if there is one. -/
def lookup (m : HashMap maxBuckets K V) (key : K) : Option V :=
  (m.entries.find? fun e => equal e.1 key).map Prod.snd

omit [MapKey K] in
theorem mem_entries {e : K × V} : e ∈ m.entries ↔ ∃ i : ℕ, m.buckets.items[i]? = some (some e) :=
  mem_reduceOption

theorem lookup_eq_some [LawfulMapKey K] (hd : Distinct SameKey m.buckets.items) {key : K} {v : V} :
    m.lookup key = some v ↔ ∃ e ∈ m.entries, equal e.1 key = true ∧ e.2 = v := by
  unfold lookup
  rw [Option.map_eq_some_iff]
  constructor
  · rintro ⟨e, he, hv⟩
    exact ⟨e, List.mem_of_find?_eq_some he, by simpa using List.find?_some he, hv⟩
  · rintro ⟨e, he, hk, hv⟩
    cases hf : m.entries.find? fun e => equal e.1 key with
    | none => exact absurd hk (by simpa using List.find?_eq_none.mp hf e he)
    | some f =>
      have hfk : equal f.1 key = true := by simpa using List.find?_some hf
      obtain ⟨i, hi⟩ := mem_entries.mp he
      obtain ⟨j, hj⟩ := mem_entries.mp (List.mem_of_find?_eq_some hf)
      have hij := hd i j e f hi hj (LawfulMapKey.trans hk (LawfulMapKey.symm hfk))
      rw [hij, hj] at hi
      cases hi
      exact ⟨e, rfl, hv⟩

/-- `m'` is `m` with the value assigned to the key. -/
def Assigned (m m' : HashMap maxBuckets K V) (key : K) (value : V) : Prop :=
  ∃ k₀, equal k₀ key = true ∧
    ∀ e, e ∈ m'.entries ↔ e = (k₀, value) ∨ e ∈ m.entries ∧ equal e.1 key = false

theorem Assigned.lookup [LawfulMapKey K] {key : K} {value : V} (h : Assigned m m' key value)
    (hd : Distinct SameKey m.buckets.items) (hd' : Distinct SameKey m'.buckets.items) (k : K) :
    m'.lookup k = if equal key k then some value else m.lookup k := by
  obtain ⟨k₀, hk₀, he⟩ := h
  ext v
  rw [lookup_eq_some hd']
  by_cases hk : equal key k = true
  · rw [if_pos hk, Option.some_inj]
    constructor
    · rintro ⟨e, hmem, hek, rfl⟩
      rcases (he e).mp hmem with rfl | ⟨-, hne⟩
      · rfl
      · rw [LawfulMapKey.trans hek (LawfulMapKey.symm hk)] at hne
        cases hne
    · rintro rfl
      exact ⟨(k₀, value), (he _).mpr (Or.inl rfl), LawfulMapKey.trans hk₀ hk, rfl⟩
  · rw [if_neg hk, lookup_eq_some hd]
    constructor
    · rintro ⟨e, hmem, hek, rfl⟩
      rcases (he e).mp hmem with rfl | ⟨hold, -⟩
      · exact absurd (LawfulMapKey.trans (LawfulMapKey.symm hk₀) hek) hk
      · exact ⟨e, hold, hek, rfl⟩
    · rintro ⟨e, hmem, hek, rfl⟩
      refine ⟨e, (he e).mpr (Or.inr ⟨hmem, ?_⟩), hek, rfl⟩
      by_contra hne
      have heq : equal e.1 key = true := by simpa using hne
      exact hk (LawfulMapKey.trans (LawfulMapKey.symm heq) hek)

omit [MapKey K] in
theorem setBucket_bucketCount (i : ℕ) (e : K × V) : (m.setBucket i e).bucketCount = m.bucketCount := by
  simp [setBucket, bucketCount, Vec.size]

omit [MapKey K] in
theorem mem_setBucket {i : ℕ} (hi : i < m.bucketCount) (e f : K × V) :
    f ∈ (m.setBucket i e).entries ↔
      f = e ∨ ∃ j, j ≠ i ∧ m.buckets.items[j]? = some (some f) := by
  rw [mem_entries]
  simp only [setBucket, Vec.set_items]
  constructor
  · rintro ⟨j, hj⟩
    by_cases hij : i = j
    · subst hij
      rw [List.getElem?_set_self hi] at hj
      cases hj
      exact Or.inl rfl
    · rw [List.getElem?_set_ne hij] at hj
      exact Or.inr ⟨j, fun h => hij h.symm, hj⟩
  · rintro (rfl | ⟨j, hj, hf⟩)
    · exact ⟨i, List.getElem?_set_self hi⟩
    · exact ⟨j, by rw [List.getElem?_set_ne (fun h => hj h.symm), hf]⟩

/-- A key that is not in the map goes to the first empty bucket of its walk. -/
theorem insertWithoutRehash_spec [LawfulMapKey K] {key : K} (value : V) (h : m.Arranged)
    (hl : load m.buckets.items < m.bucketCount)
    (hnew : ∀ e ∈ m.entries, equal e.1 key = false) :
    ∃ m', insertWithoutRehash key value m = .ok m' ∧ m'.Arranged ∧
      m'.bucketCount = m.bucketCount ∧ m'.size = m.size + 1 ∧
      ∀ e, e ∈ m'.entries ↔ e = (key, value) ∨ e ∈ m.entries := by
  obtain ⟨n, hn, hempty, hfilled⟩ := exists_first_vacant hl (hash key).toNat
  have hwalk : m.walk key Option.isNone = some (visit m.buckets.items (hash key).toNat n) := by
    refine walk_eq h.power hn hempty rfl fun d hd => ?_
    obtain ⟨e, he⟩ := hfilled d hd
    exact ⟨some e, he, rfl⟩
  have hlt := hempty.lt_length
  have hne : ∀ (j : ℕ) (f : K × V), m.buckets.items[j]? = some (some f) →
      ¬ SameKey (key, value) f ∧ ¬ SameKey f (key, value) := by
    intro j f hj
    have hf := hnew f (mem_entries.mpr ⟨j, hj⟩)
    refine ⟨fun hs => ?_, fun hs => ?_⟩
    · rw [LawfulMapKey.symm hs] at hf
      cases hf
    · rw [SameKey, hf] at hs
      cases hs
  refine ⟨_, by rw [insertWithoutRehash, hwalk]; rfl, ⟨?_, ?_, ?_, ?_⟩, ?_, rfl, fun e => ?_⟩
  · obtain ⟨k, hk, hc⟩ := h.power
    exact ⟨k, hk, (setBucket_bucketCount _ _).trans hc⟩
  · simp only [setBucket, Vec.set_items]
    rw [load_set_vacant hempty, h.size_eq]
  · exact h.distinct.set hlt fun j f _ hj => hne j f hj
  · exact Chained.set (e := (key, value)) h.chained hn hfilled
  · exact setBucket_bucketCount _ _
  · refine (mem_setBucket hlt (key, value) e).trans (or_congr_right ?_)
    rw [mem_entries]
    constructor
    · rintro ⟨j, -, hj⟩
      exact ⟨j, hj⟩
    · rintro ⟨j, hj⟩
      refine ⟨j, ?_, hj⟩
      rintro rfl
      rw [Vacant, hj] at hempty
      cases hempty

/-- The entries of a table go into another one with room for them. -/
theorem insertAll_spec [LawfulMapKey K] {buckets : List (Option (K × V))} (h : m.Arranged)
    (hroom : m.size + buckets.reduceOption.length < m.bucketCount)
    (hd : buckets.reduceOption.Pairwise fun e f => ¬ SameKey e f)
    (hnew : ∀ e ∈ m.entries, ∀ f ∈ buckets.reduceOption, equal e.1 f.1 = false) :
    ∃ m', insertAll buckets m = .ok m' ∧ m'.Arranged ∧ m'.bucketCount = m.bucketCount ∧
      m'.size = m.size + buckets.reduceOption.length ∧
      ∀ e, e ∈ m'.entries ↔ e ∈ buckets.reduceOption ∨ e ∈ m.entries := by
  unfold insertAll
  generalize buckets.reduceOption = es at *
  induction es generalizing m with
  | nil => exact ⟨m, rfl, h, rfl, rfl, by simp⟩
  | cons f es ih =>
    rw [List.length_cons] at hroom
    rw [List.pairwise_cons] at hd
    have hload : load m.buckets.items < m.bucketCount := by
      rw [← h.size_eq]
      omega
    obtain ⟨m₁, hm₁, h₁, hc₁, hs₁, he₁⟩ := insertWithoutRehash_spec f.2 h hload
      fun e he => hnew e he f List.mem_cons_self
    obtain ⟨m₂, hm₂, h₂, hc₂, hs₂, he₂⟩ := ih h₁ (by rw [hs₁, hc₁]; omega) hd.2 fun e he g hg => by
      rcases (he₁ e).mp he with rfl | he
      · have := hd.1 g hg
        unfold SameKey at this
        simpa using this
      · exact hnew e he g (List.mem_cons_of_mem _ hg)
    refine ⟨m₂, ?_, h₂, hc₂.trans hc₁, by rw [hs₂, hs₁, List.length_cons]; omega, fun e => ?_⟩
    · rw [List.foldlM_cons, except_bind_of_ok hm₁, hm₂]
    · rw [he₂, he₁, List.mem_cons]
      constructor
      · rintro (he | rfl | he)
        · exact Or.inl (Or.inr he)
        · exact Or.inl (Or.inl rfl)
        · exact Or.inr he
      · rintro ((rfl | he) | he)
        · exact Or.inr (Or.inl rfl)
        · exact Or.inl he
        · exact Or.inr (Or.inr he)

private theorem bucketCountForLoop_spec (maxBuckets : ℕ) {target n k : ℕ} (hk : 3 ≤ k)
    (hn : target ≤ 2 ^ k * 2 ^ n) :
    match bucketCountForLoop maxBuckets target (n + 1) (2 ^ k) with
    | .ok c => target ≤ c ∧ (∃ k, 3 ≤ k ∧ c = 2 ^ k) ∧ c ≤ max (2 ^ k) (2 * target)
    | .error e => e.IsLimit ∧ maxBuckets < 2 * target := by
  induction n generalizing k with
  | zero =>
    rw [bucketCountForLoop, if_neg (by omega)]
    exact ⟨by omega, ⟨k, hk, rfl⟩, Nat.le_max_left _ _⟩
  | succ n ih =>
    rw [bucketCountForLoop]
    by_cases hlt : 2 ^ k < target
    · rw [if_pos hlt]
      by_cases hmax : 2 ^ k > maxBuckets / 2
      · rw [if_pos hmax]
        have hless : maxBuckets < 2 * target := by omega
        exact ⟨List.mem_cons_of_mem _ (List.mem_cons_of_mem _ List.mem_cons_self), hless⟩
      · rw [if_neg hmax, ← Nat.pow_succ]
        have hspec := ih (k := k + 1) (by omega) (by
          rw [Nat.pow_succ, Nat.mul_assoc, ← Nat.pow_succ']
          exact hn)
        cases hloop : bucketCountForLoop maxBuckets target (n + 1) (2 ^ (k + 1)) with
        | error e =>
          rw [hloop] at hspec
          exact hspec
        | ok c =>
          rw [hloop] at hspec
          obtain ⟨hc, hp, hle⟩ := hspec
          refine ⟨hc, hp, ?_⟩
          rw [Nat.pow_succ] at hle
          omega
    · rw [if_neg hlt]
      exact ⟨by omega, ⟨k, hk, rfl⟩, Nat.le_max_left _ _⟩

/-- A table for so many entries is within the number of buckets. -/
def Fits (maxBuckets count : ℕ) : Prop := max 8 (4 * count) ≤ maxBuckets

instance (maxBuckets count : ℕ) : Decidable (Fits maxBuckets count) :=
  inferInstanceAs (Decidable (max 8 (4 * count) ≤ maxBuckets))

theorem Fits.mono {count count' : ℕ} (h : Fits maxBuckets count) (hle : count' ≤ count) :
    Fits maxBuckets count' := by
  unfold Fits at h ⊢
  omega

theorem bucketCountFor_spec (hmax : maxBuckets ≤ usizeMax) (count : ℕ) :
    match bucketCountFor maxBuckets count with
    | .ok c => count * 2 ≤ c ∧ (∃ k, 3 ≤ k ∧ c = 2 ^ k) ∧ c ≤ max 8 (4 * count)
    | .error e => e.IsLimit ∧ ¬Fits maxBuckets count := by
  unfold bucketCountFor Fits
  by_cases hc : count > maxSize maxBuckets
  · rw [if_pos hc]
    unfold maxSize at hc
    have hless : ¬max 8 (4 * count) ≤ maxBuckets := by omega
    exact ⟨List.mem_cons_of_mem _ (List.mem_cons_of_mem _ List.mem_cons_self), hless⟩
  · rw [if_neg hc]
    have htarget : count * 2 ≤ 2 ^ 3 * 2 ^ 63 := by
      have : count * 2 ≤ maxBuckets := by
        unfold maxSize at hc
        omega
      exact Nat.le_trans (Nat.le_trans this hmax) (by decide)
    have hspec := bucketCountForLoop_spec maxBuckets (Nat.le_refl 3) htarget
    cases hloop : bucketCountForLoop maxBuckets (count * 2) (63 + 1) (2 ^ 3) with
    | error e =>
      rw [hloop] at hspec
      exact ⟨hspec.1, by omega⟩
    | ok c =>
      rw [hloop] at hspec
      obtain ⟨hle, hp, hc⟩ := hspec
      exact ⟨hle, hp, by omega⟩

end

end HashMap
end Protocyte
