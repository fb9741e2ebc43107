import Protocyte.Runtime.HashMap.Operations
import Mathlib.Logic.Function.Basic

/-! Histories of hash maps: every map stays well formed, and iteration yields the finite map of the
values assigned last. -/
namespace Protocyte
open Foundation.Computation Foundation.OpenAddressing

namespace HashMap
open MapKey (hash equal)

variable {maxBuckets : ℕ} {K V : Type}

/-- Maps that share an allocator, by number. -/
structure Store (maxBuckets : ℕ) (K V : Type) where
  ctx : Context
  maps : ℕ → HashMap maxBuckets K V

inductive MapOp (K V : Type)
  | insertOrAssign (map : ℕ) (copyKey copyMapped : Bool) (key : K) (value : V) (withinKey : Bool)
  | reserve (map count : ℕ)
  | clear (map : ℕ)
  | copyFrom (map other : ℕ)

def Store.onMap (map : ℕ) (x : BoundM (HashMap maxBuckets K V) Unit) :
    EStateM Error (Store maxBuckets K V) Unit := fun s =>
  match x { ctx := s.ctx, obj := s.maps map } with
  | .ok _ t => .ok () { ctx := t.ctx, maps := Function.update s.maps map t.obj }
  | .error e t => .error e { ctx := t.ctx, maps := Function.update s.maps map t.obj }

namespace MapOp

def apply [MapKey K] [CopyValue K] [CopyValue V] :
    MapOp K V → EStateM Error (Store maxBuckets K V) Unit
  | .insertOrAssign map copyKey copyMapped key value withinKey =>
    Store.onMap map (HashMap.insertOrAssign copyKey copyMapped key value withinKey)
  | .reserve map count => Store.onMap map (HashMap.reserve count)
  | .clear map => Store.onMap map (modify fun s => { s with obj := s.obj.clear })
  | .copyFrom map other => fun s =>
    Store.onMap map (HashMap.copyFrom (s.maps other) (map == other)) s

/-- What an operation is for: the finite map of each number, by its values. -/
def effect [MapKey K] (f : ℕ → K → Option V) : MapOp K V → ℕ → K → Option V
  | .insertOrAssign map _ _ key value _ =>
    Function.update f map fun k => if equal key k then some value else f map k
  | .reserve _ _ => f
  | .clear map => Function.update f map fun _ => none
  | .copyFrom map other => Function.update f map (f other)

/-- A step of a history: only a success has an effect. -/
def step [MapKey K] [CopyValue K] [CopyValue V]
    (p : Store maxBuckets K V × (ℕ → K → Option V)) (op : MapOp K V) :
    Store maxBuckets K V × (ℕ → K → Option V) :=
  match op.apply p.1 with
  | .ok _ s => (s, op.effect p.2)
  | .error _ s => (s, p.2)

end MapOp

/-- Every map is well formed and holds the finite map of its number. -/
def Holds [MapKey K] (s : Store maxBuckets K V) (f : ℕ → K → Option V) : Prop :=
  ∀ i, (s.maps i).WellFormed ∧ ∀ k, (s.maps i).lookup k = f i k

variable [MapKey K] [LawfulMapKey K] [CopyValue K] [LawfulCopyValue K] [CopyValue V]
  [LawfulCopyValue V]

omit [LawfulMapKey K] [CopyValue K] [LawfulCopyValue K] [CopyValue V] [LawfulCopyValue V] in
private theorem onMap_exits {S : Store maxBuckets K V} {f : ℕ → K → Option V} (h : Holds S f)
    {i : ℕ} {g : K → Option V} {x : BoundM (HashMap maxBuckets K V) Unit}
    (hx : MapExits x { ctx := S.ctx, obj := S.maps i } (fun m' => ∀ k, m'.lookup k = g k)) :
    Exits (Store.onMap i x S) (fun _ S' => Holds S' (Function.update f i g))
      (fun e S' => S'.maps = S.maps ∧ e.code ≠ .diverged) := by
  unfold Store.onMap
  cases ho : x { ctx := S.ctx, obj := S.maps i } with
  | ok u t =>
    obtain ⟨-, hw, hl⟩ := hx.ok ho
    intro j
    by_cases hij : j = i
    · subst hij
      simp only [Function.update_self]
      exact ⟨hw, hl⟩
    · simp only [Function.update_of_ne hij]
      exact h j
  | error e t =>
    obtain ⟨-, hobj, he⟩ := hx.error ho
    refine ⟨?_, he⟩
    simp only [hobj, Function.update_eq_self]

omit [CopyValue K] [LawfulCopyValue K] [CopyValue V] [LawfulCopyValue V] in
private theorem lookup_congr {m m' : HashMap maxBuckets K V} (h : m.WellFormed)
    (h' : m'.WellFormed) (he : ∀ e, e ∈ m'.entries ↔ e ∈ m.entries) (k : K) :
    m'.lookup k = m.lookup k := by
  ext v
  rw [lookup_eq_some h'.distinct, lookup_eq_some h.distinct]
  simp only [he]

/-- Every operation does to the finite maps what it is for, or nothing. -/
theorem MapOp.apply_exits (hmax : maxBuckets ≤ usizeMax) {S : Store maxBuckets K V}
    {f : ℕ → K → Option V} (h : Holds S f) (op : MapOp K V) :
    Exits (op.apply S) (fun _ S' => Holds S' (op.effect f))
      (fun e S' => S'.maps = S.maps ∧ e.code ≠ .diverged) := by
  cases op with
  | insertOrAssign i copyKey copyMapped key value withinKey =>
    refine onMap_exits h ((insertOrAssign_exits hmax (h i).1 copyKey copyMapped key value
      withinKey).mono ?_ (fun _ _ hq => hq))
    rintro - s' ⟨hs, hw, ha⟩
    refine ⟨hs, hw, fun k => ?_⟩
    rw [ha.lookup (h i).1.distinct hw.distinct, (h i).2]
  | reserve i count =>
    have hx := onMap_exits h (i := i) (g := f i) ((reserve_exits hmax (h i).1 count).mono ?_
      (fun _ _ hq => hq))
    · rwa [Function.update_eq_self] at hx
    · rintro - s' ⟨hs, hw, he⟩
      exact ⟨hs, hw, fun k => (lookup_congr (h i).1 hw he k).trans ((h i).2 k)⟩
  | clear i =>
    obtain ⟨hw, hnil⟩ := (h i).1.clear
    have hx : MapExits (modify fun s => { s with obj := s.obj.clear })
        { ctx := S.ctx, obj := S.maps i } (fun m' => ∀ k, m'.lookup k = none) := by
      refine ⟨.refl _, hw, fun k => ?_⟩
      rw [lookup, hnil]
      rfl
    exact onMap_exits h hx
  | copyFrom i j =>
    refine onMap_exits h ((copyFrom_exits hmax (h i).1 (h j).1 ?_).mono ?_ (fun _ _ hq => hq))
    · intro hij
      rw [eq_of_beq hij]
    · rintro - s' ⟨hs, hw, hl⟩
      exact ⟨hs, hw, fun k => (hl k).trans ((h j).2 k)⟩

theorem MapOp.holds_foldl (hmax : maxBuckets ≤ usizeMax) (ops : List (MapOp K V))
    {p : Store maxBuckets K V × (ℕ → K → Option V)} (h : Holds p.1 p.2) :
    Holds (ops.foldl step p).1 (ops.foldl step p).2 := by
  induction ops generalizing p with
  | nil => exact h
  | cons op ops ih =>
    refine ih ?_
    have hx := op.apply_exits hmax h
    unfold step
    cases ho : op.apply p.1 with
    | ok u S => exact hx.ok ho
    | error e S =>
      intro i
      rw [(hx.error ho).1]
      exact h i

/-- Whatever operations maps have seen since they were empty, and whichever failed, they are well
formed, the walks of both probe loops end, and iteration yields the finite map of the values
assigned last; and an operation that fails changes no map. -/
theorem hashMap_history (hmax : maxBuckets ≤ usizeMax) (ctx : Context) (ops : List (MapOp K V)) :
    let p := ops.foldl MapOp.step
      (({ ctx, maps := fun _ => empty } : Store maxBuckets K V), fun _ _ => none)
    (∀ i, (p.1.maps i).WellFormed ∧
        (∀ key, (p.1.maps i).bucketCount ≠ 0 →
          (∃ j slot, (p.1.maps i).walk key (matching key) = some j ∧
            (p.1.maps i).buckets.items[j]? = some slot ∧ matching key slot = true) ∧
          ∃ j, (p.1.maps i).walk key Option.isNone = some j ∧
            (p.1.maps i).buckets.items[j]? = some none) ∧
        (p.1.maps i).entries.Pairwise (fun e f => equal e.1 f.1 = false) ∧
        ∀ key value, p.2 i key = some value ↔
          ∃ e ∈ (p.1.maps i).entries, equal e.1 key = true ∧ e.2 = value) ∧
      ∀ (op : MapOp K V) e s', op.apply p.1 = .error e s' →
        e.code ≠ .diverged ∧ s'.maps = p.1.maps := by
  intro p
  have hinit : Holds ({ ctx, maps := fun _ => empty } : Store maxBuckets K V)
      (fun _ _ => (none : Option V)) := by
    intro i
    have hitem : ∀ (j : ℕ) (e : K × V), ¬ ([] : List (Option (K × V)))[j]? = some (some e) := by
      simp
    exact ⟨⟨Or.inl rfl, rfl, Nat.zero_le _, fun hc => absurd rfl hc,
      fun j k e g hj => absurd hj (hitem j e), fun j e hj => absurd hj (hitem j e)⟩, fun _ => rfl⟩
  have hholds : Holds p.1 p.2 := MapOp.holds_foldl hmax ops hinit
  refine ⟨fun i => ?_, fun op e s' he => ?_⟩
  · obtain ⟨hw, hl⟩ := hholds i
    refine ⟨hw, fun key hc => ⟨?_, ?_⟩, ?_, fun key value => ?_⟩
    · obtain ⟨j, hj, hend⟩ := (hw.arranged hc).walk_matching
        ((hw.arranged hc).load_lt (hw.below hc)) key
      rcases hend with ⟨hv, -⟩ | ⟨e, hi, hk⟩
      · exact ⟨j, none, hj, hv, rfl⟩
      · exact ⟨j, some e, hj, hi, hk⟩
    · obtain ⟨j, hj, hv⟩ := (hw.arranged hc).walk_vacant
        ((hw.arranged hc).load_lt (hw.below hc)) key
      exact ⟨j, hj, hv⟩
    · refine hw.distinct.pairwise.imp ?_
      intro e f hef
      unfold SameKey at hef
      simpa using hef
    · rw [← hl, lookup_eq_some hw.distinct]
  · obtain ⟨hm, hcode⟩ := (op.apply_exits hmax hholds).error he
    exact ⟨hcode, hm⟩

/-- A key assigned twice, in a map of byte strings. -/
theorem hashMap_history_twice :
    let p := [MapOp.insertOrAssign 0 false false ([1] : List UInt8) ([2] : List UInt8) false,
      .insertOrAssign 0 true true [1] [3] false].foldl MapOp.step
        (({ ctx := {}, maps := fun _ => empty } : Store (2 ^ 32) (List UInt8) (List UInt8)),
          fun _ _ => none)
    ∃ e ∈ (p.1.maps 0).entries, equal e.1 [1] = true ∧ e.2 = [3] :=
  ((hashMap_history (by decide) {} _).1 0).2.2.2 [1] [3] |>.mp (by rfl)

end HashMap
end Protocyte
