import Protocyte.Runtime.HashMap

/-! What the operations of a hash map do to its finite map. Each keeps the map well formed, so no
walk goes round; one that fails does nothing. -/
namespace Protocyte
open Foundation.Computation Foundation.OpenAddressing

namespace HashMap
open MapKey (hash equal)
open CopyValue (copyValue movedFrom compatible)

variable {maxBuckets : ℕ} {K V : Type} [MapKey K] [LawfulMapKey K]
variable {s : Bound (HashMap maxBuckets K V)}

/-- Both exits of an operation that fails with the errors of `E`. -/
def MapRuns (E : Error → Prop) (x : BoundM (HashMap maxBuckets K V) Unit)
    (s : Bound (HashMap maxBuckets K V)) (Q : HashMap maxBuckets K V → Prop) : Prop :=
  Exits (x s) (fun _ s' => s.ctx.Spent s'.ctx ∧ s'.obj.WellFormed ∧ Q s'.obj)
    (fun e s' => s.ctx.Spent s'.ctx ∧ s'.obj = s.obj ∧ E e)

/-- Both exits of an operation. -/
abbrev MapExits (x : BoundM (HashMap maxBuckets K V) Unit) (s : Bound (HashMap maxBuckets K V))
    (Q : HashMap maxBuckets K V → Prop) : Prop :=
  MapRuns (fun e => e.code ≠ .diverged) x s Q

omit [LawfulMapKey K] in
/-- A table of its own for the entries to come. -/
private theorem fresh_exits (hmax : maxBuckets ≤ usizeMax) (c : ℕ) (hc : ∃ k, 3 ≤ k ∧ c = 2 ^ k) :
    Exits (onTemporary (Vec.empty : Vec maxBuckets (Option (K × V))) (Vec.resizeDefault none c) s)
      (fun p s' => (s.ctx.Spent s'.ctx ∧ Arranged { buckets := p.2 } ∧
        ({ buckets := p.2 } : HashMap maxBuckets K V).bucketCount = c ∧
        ({ buckets := p.2 } : HashMap maxBuckets K V).entries = []) ∧ s'.obj = s.obj)
      (fun e s' => s.ctx.Spent s'.ctx ∧ s'.obj = s.obj ∧ e.IsLimit ∧
        ¬(s.ctx.AlwaysGrants ∧ c ≤ maxBuckets)) := by
  have hr := Vec.resizeDefault_exits (none : Option (K × V)) (n := c)
    (s := { ctx := s.ctx, obj := (Vec.empty : Vec maxBuckets (Option (K × V))) }) rfl
  refine (onTemporary_exits hr).mono ?_ ?_
  · rintro ⟨⟨⟩, buckets⟩ s' ⟨⟨hs, hi⟩, ho⟩
    exact ⟨⟨hs, arranged_replicate hi hc⟩, ho⟩
  · rintro e s' ⟨⟨t, hs, -, he⟩, ho⟩
    refine ⟨hs, ho, ?_, fun ⟨hg, hle⟩ => ?_⟩
    · have hcode := he.code
      simp only [List.mem_cons, List.not_mem_nil, or_false] at hcode
      rcases hcode with h | h | h <;> simp [Error.IsLimit, h]
    · exact (he.not_alwaysGrants hle (Nat.le_trans hle hmax)).2 hg

/-- In a table with room a new key needs no other table. -/
private theorem insertNew_room {key : K} (value : V) (hmax : maxBuckets ≤ usizeMax) (h : s.obj.Arranged)
    (hroom : s.obj.size + 1 < rehashThresholdFor s.obj.bucketCount)
    (hle : s.obj.size + 1 ≤ maxSize maxBuckets)
    (hnew : ∀ e ∈ s.obj.entries, equal e.1 key = false) :
    ∃ m', insertNew key value s = .ok () { s with obj := m' } ∧ m'.Arranged ∧
      m'.bucketCount = s.obj.bucketCount ∧ m'.size = s.obj.size + 1 ∧
      ∀ e, e ∈ m'.entries ↔ e = (key, value) ∨ e ∈ s.obj.entries := by
  have hadd : checkedAdd s.obj.size 1 = .ok (s.obj.size + 1) := by
    refine checkedAdd_of_le (Nat.le_trans hle (Nat.le_trans ?_ hmax))
    exact Nat.div_le_self _ _
  have hcount : bucketCountForOneMore s.obj = .ok 0 := by
    have := h.eight_le
    rw [bucketCountForOneMore, except_bind_of_ok hadd, if_neg (by omega), if_neg (by omega)]
    rfl
  obtain ⟨m', hm', harr, hc, hs, he⟩ := insertWithoutRehash_spec value h
    (h.load_lt (by omega)) hnew
  refine ⟨m', ?_, harr, hc, hs, he⟩
  rw [insertNew, bind_of_ok (get_apply s), ofExcept_bind hcount]
  simp only [ne_eq, not_true_eq_false, if_false]
  rw [ofExcept_bind hm']
  rfl

/-- A failure to make a table for one more entry. -/
def Outgrown (s : Bound (HashMap maxBuckets K V)) (e : Error) : Prop :=
  e.IsLimit ∧ ¬(s.ctx.AlwaysGrants ∧ Fits maxBuckets (s.obj.size + 1))

private theorem rehashAndInsert_exits (hmax : maxBuckets ≤ usizeMax) (h : s.obj.WellFormed) {c : ℕ}
    (hc : (s.obj.size + 1) * 2 ≤ c) (hp : ∃ k, 3 ≤ k ∧ c = 2 ^ k)
    (hfew : c ≤ max 8 (4 * (s.obj.size + 1)))
    (hle : s.obj.size + 1 ≤ maxSize maxBuckets) {key : K} {value : V}
    (hnew : ∀ e ∈ s.obj.entries, equal e.1 key = false) :
    MapRuns (Outgrown s) (rehashAndInsert c key value) s (fun m' => m'.size = s.obj.size + 1 ∧
      ∀ e, e ∈ m'.entries ↔ e = (key, value) ∨ e ∈ s.obj.entries) := by
  have hlen : s.obj.buckets.items.reduceOption.length = s.obj.size := by
    rw [length_reduceOption, h.size_eq]
  unfold MapRuns rehashAndInsert
  rw [bind_of_ok (get_apply s)]
  refine Exits.bind ((fresh_exits hmax c hp).mono (fun _ _ h => h) ?_) ?_
  · intro e t ⟨hs, ho, hlimit, hroom⟩
    exact ⟨hs, ho, hlimit, fun ⟨hg, hfits⟩ => hroom ⟨hg, Nat.le_trans hfew hfits⟩⟩
  rintro ⟨⟨⟩, buckets⟩ t ⟨⟨hs, harr, hcount, hnil⟩, ho⟩
  dsimp only at hs harr hcount hnil ⊢
  have hload : load buckets.items = 0 := by rw [← harr.size_eq]
  obtain ⟨m₁, hm₁, h₁, hc₁, hs₁, he₁⟩ := insertWithoutRehash_spec value harr
    (by rw [hcount]; simp only [hload]; omega) (by rw [hnil]; simp)
  simp only [hcount, hnil, List.not_mem_nil, or_false, Nat.zero_add] at hc₁ hs₁ he₁
  obtain ⟨m₂, hm₂, h₂, hc₂, hs₂, he₂⟩ := insertAll_spec h₁
    (by rw [hlen, hc₁, hs₁]; omega) h.distinct.pairwise (by
      intro e he f hf
      rw [(he₁ e).mp he]
      have := hnew f hf
      by_contra hne
      have heq : equal key f.1 = true := by simpa using hne
      rw [LawfulMapKey.symm heq] at this
      cases this)
  rw [ofExcept_bind hm₁, ofExcept_bind hm₂]
  rw [hs₁, hlen] at hs₂
  refine ⟨hs, h₂.wellFormed ?_ (by rw [hs₂]; omega), by rw [hs₂, Nat.add_comm], fun e => ?_⟩
  · rw [hc₂, hc₁, hs₂]
    obtain ⟨k, hk, rfl⟩ := hp
    exact lt_rehashThresholdFor (by omega) (eight_le_pow hk)
  · rw [he₂, he₁]
    exact or_comm

private theorem insertNew_exits (hmax : maxBuckets ≤ usizeMax) (h : s.obj.WellFormed) {key : K}
    {value : V} (hnew : ∀ e ∈ s.obj.entries, equal e.1 key = false) :
    MapRuns (Outgrown s) (insertNew key value) s (fun m' => m'.size = s.obj.size + 1 ∧
      ∀ e, e ∈ m'.entries ↔ e = (key, value) ∨ e ∈ s.obj.entries) := by
  have hadd : checkedAdd s.obj.size 1 = .ok (s.obj.size + 1) := by
    refine checkedAdd_of_le ?_
    have := h.size_le
    unfold maxSize at this
    have : usizeMax = 2 ^ 64 - 1 := rfl
    omega
  by_cases hle : s.obj.size + 1 ≤ maxSize maxBuckets
  swap
  · have hcount : bucketCountForOneMore s.obj = .error { code := .countLimit } := by
      rw [bucketCountForOneMore, except_bind_of_ok hadd, if_pos (by omega)]
      rfl
    unfold MapRuns
    rw [insertNew, bind_of_ok (get_apply s), hcount]
    refine ⟨.refl _, rfl, by simp [Error.IsLimit], fun ⟨_, hfits⟩ => ?_⟩
    unfold maxSize at hle
    unfold Fits at hfits
    omega
  by_cases hroom : s.obj.bucketCount = 0 ∨
      s.obj.size + 1 ≥ rehashThresholdFor s.obj.bucketCount
  · have hcount : bucketCountForOneMore s.obj = bucketCountFor maxBuckets (s.obj.size + 1) := by
      rw [bucketCountForOneMore, except_bind_of_ok hadd, if_neg (by omega), if_pos hroom]
    have hspec := bucketCountFor_spec hmax (s.obj.size + 1)
    unfold MapRuns
    rw [insertNew, bind_of_ok (get_apply s), hcount]
    cases hb : bucketCountFor maxBuckets (s.obj.size + 1) with
    | error e =>
      rw [hb] at hspec
      exact ⟨.refl _, rfl, hspec.1, fun hc => hspec.2 hc.2⟩
    | ok c =>
      rw [hb] at hspec
      rw [ofExcept_bind rfl, if_pos (by omega)]
      exact rehashAndInsert_exits hmax h hspec.1 hspec.2.1 hspec.2.2 hle hnew
  · obtain ⟨hc, hlt⟩ := not_or.mp hroom
    obtain ⟨m', hm', harr, hcount, hs, he⟩ := insertNew_room value hmax (h.arranged hc)
      (Nat.lt_of_not_le hlt) hle hnew
    unfold MapRuns
    rw [hm']
    refine ⟨.refl _, harr.wellFormed ?_ ?_, hs, he⟩
    · rw [hs, hcount]
      exact Nat.lt_of_not_le hlt
    · rw [hs]
      exact hle

variable [CopyValue V] [LawfulCopyValue V]

omit [MapKey K] [LawfulMapKey K] [CopyValue V] [LawfulCopyValue V] in
private theorem copying_exits {α : Type} [CopyValue α] [LawfulCopyValue α] (a : α)
    (s : Bound (HashMap maxBuckets K V)) : Exits (copying a s)
      (fun b s' => b = a ∧ s.ctx.Spent s'.ctx ∧ s'.obj = s.obj)
      (fun e s' => s.ctx.Spent s'.ctx ∧ s'.obj = s.obj ∧ e.code ≠ .diverged) := by
  have hc := LawfulCopyValue.copyValue_exits a s.ctx
  unfold copying
  cases ho : copyValue a s.ctx with
  | ok b ctx => exact ⟨(hc.ok ho).1, (hc.ok ho).2, rfl⟩
  | error e ctx => exact ⟨(hc.error ho).1, rfl, (hc.error ho).2⟩

omit [MapKey K] [LawfulMapKey K] [CopyValue V] [LawfulCopyValue V] in
private theorem passing_exits {α : Type} [CopyValue α] [LawfulCopyValue α] (copy : Bool) (a : α)
    (s : Bound (HashMap maxBuckets K V)) : Exits (passing copy a s)
      (fun b s' => b = a ∧ s.ctx.Spent s'.ctx ∧ s'.obj = s.obj)
      (fun e s' => s.ctx.Spent s'.ctx ∧ s'.obj = s.obj ∧ e.code ≠ .diverged) := by
  cases copy with
  | true => exact copying_exits a s
  | false => exact ⟨rfl, .refl _, rfl⟩

omit [CopyValue V] [LawfulCopyValue V] in
/-- The matched bucket gets the value. -/
private theorem setBucket_spec {m : HashMap maxBuckets K V} (h : m.WellFormed) {i : ℕ} {e : K × V}
    {key : K} (hi : m.buckets.items[i]? = some (some e)) (hk : equal e.1 key = true) (value : V) :
    (m.setBucket i (e.1, value)).WellFormed ∧
      Assigned m (m.setBucket i (e.1, value)) key value := by
  have hlt : i < m.bucketCount := (List.getElem?_eq_some_iff.mp hi).1
  have hcount := setBucket_bucketCount (m := m) i (e.1, value)
  have hother : ∀ (j : ℕ) (f : K × V), i ≠ j → m.buckets.items[j]? = some (some f) →
      equal f.1 key = false := by
    intro j f hij hj
    by_contra hne
    have heq : equal f.1 key = true := by simpa using hne
    exact hij (h.distinct i j e f hi hj (LawfulMapKey.trans hk (LawfulMapKey.symm heq)))
  refine ⟨⟨?_, ?_, h.size_le, ?_, ?_, ?_⟩, e.1, hk, fun f => ?_⟩
  · rw [hcount]
    exact h.power
  · simp only [setBucket, Vec.set_items]
    rw [load_set_filled ⟨e, hi⟩, h.size_eq]
  · rw [hcount]
    exact h.below
  · refine h.distinct.set hlt fun j f hij hj => ?_
    have hf := hother j f hij hj
    refine ⟨fun hs => ?_, fun hs => ?_⟩
    · rw [LawfulMapKey.trans (LawfulMapKey.symm hs) hk] at hf
      cases hf
    · rw [LawfulMapKey.trans hs hk] at hf
      cases hf
  · have hhome : home (e.1, value) = home e := rfl
    exact Chained.replace h.chained hi hhome
  · refine (mem_setBucket hlt (e.1, value) f).trans (or_congr_right ?_)
    rw [mem_entries]
    constructor
    · rintro ⟨j, hj, hf⟩
      exact ⟨⟨j, hf⟩, hother j f (fun h => hj h.symm) hf⟩
    · rintro ⟨⟨j, hj⟩, hf⟩
      refine ⟨j, ?_, hj⟩
      rintro rfl
      rw [hi] at hj
      cases hj
      rw [hk] at hf
      cases hf

omit [LawfulMapKey K] [CopyValue V] [LawfulCopyValue V] in
private theorem assigned_of_new {m m' : HashMap maxBuckets K V} {key : K} {value : V}
    (hrefl : equal key key = true) (hnew : ∀ e ∈ m.entries, equal e.1 key = false)
    (he : ∀ e, e ∈ m'.entries ↔ e = (key, value) ∨ e ∈ m.entries) : Assigned m m' key value :=
  ⟨key, hrefl, fun e => (he e).trans (or_congr_right
    ⟨fun hm => ⟨hm, hnew e hm⟩, fun hm => hm.1⟩)⟩

omit [LawfulCopyValue V] in
/-- Where the walk ends: the key is new, or it is found. -/
private theorem insertOrAssignImpl_eq (h : s.obj.WellFormed) (key : K) (value : V)
    (withinKey : Bool) :
    (∀ e ∈ s.obj.entries, equal e.1 key = false) ∧
        insertOrAssignImpl key value withinKey s = insertNew key value s ∨
      ∃ i e, s.obj.buckets.items[i]? = some (some e) ∧ equal e.1 key = true ∧
        insertOrAssignImpl key value withinKey s = (if withinKey then
          if compatible V then (do
            let copied ← copying value
            moveAssign (s.obj.setBucket i (e.1, copied)))
          else throw { code := .invalidArgument }
        else moveAssign (s.obj.setBucket i (e.1, value)) : BoundM (HashMap maxBuckets K V) Unit) s := by
  by_cases hc : s.obj.bucketCount = 0
  · refine Or.inl ⟨by rw [entries_of_bucketCount hc]; simp, ?_⟩
    rw [insertOrAssignImpl, bind_of_ok (get_apply s), if_pos hc]
  · have harr := h.arranged hc
    obtain ⟨i, hwalk, ⟨hv, hnew⟩ | ⟨e, hi, hk⟩⟩ := harr.walk_matching
      (harr.load_lt (h.below hc)) key
    · refine Or.inl ⟨hnew, ?_⟩
      rw [insertOrAssignImpl, bind_of_ok (get_apply s), if_neg hc]
      simp only [hwalk]
      rw [show s.obj.buckets.items[i]? = some none from hv]
    · refine Or.inr ⟨i, e, hi, hk, ?_⟩
      rw [insertOrAssignImpl, bind_of_ok (get_apply s), if_neg hc]
      simp only [hwalk, hi]

omit [CopyValue V] [LawfulCopyValue V] in
private theorem assign_new_exits (hmax : maxBuckets ≤ usizeMax) (h : s.obj.WellFormed) {key : K}
    (value : V) (hnew : ∀ e ∈ s.obj.entries, equal e.1 key = false) :
    MapRuns (Outgrown s) (insertNew key value) s
      (fun m' => m'.size ≤ s.obj.size + 1 ∧ Assigned s.obj m' key value) := by
  refine (insertNew_exits hmax h hnew).mono ?_ (fun _ _ hq => hq)
  rintro - s' ⟨hs, hw, hsize, he⟩
  exact ⟨hs, hw, Nat.le_of_eq hsize, assigned_of_new (LawfulMapKey.refl key) hnew he⟩

omit [LawfulCopyValue V] in
/-- Moving arguments in copies nothing. -/
theorem insertOrAssign_moved_exits [CopyValue K] (hmax : maxBuckets ≤ usizeMax)
    (h : s.obj.WellFormed) (key : K) (value : V) :
    MapRuns (Outgrown s) (insertOrAssign false false key value false) s
      (fun m' => m'.size ≤ s.obj.size + 1 ∧ Assigned s.obj m' key value) := by
  change MapRuns _ (insertOrAssignImpl key value false) s _
  unfold MapRuns
  rcases insertOrAssignImpl_eq h key value false with ⟨hnew, ho⟩ | ⟨i, e, hi, hk, ho⟩
  · rw [ho]
    exact assign_new_exits hmax h value hnew
  · rw [ho]
    obtain ⟨hw, hassigned⟩ := setBucket_spec h hi hk value
    exact ⟨.refl _, hw, Nat.le_succ _, hassigned⟩

theorem insertOrAssignImpl_exits (hmax : maxBuckets ≤ usizeMax) (h : s.obj.WellFormed) (key : K)
    (value : V) (withinKey : Bool) : MapExits (insertOrAssignImpl key value withinKey) s
      (fun m' => Assigned s.obj m' key value) := by
  unfold MapExits MapRuns
  rcases insertOrAssignImpl_eq h key value withinKey with ⟨hnew, ho⟩ | ⟨i, e, hi, hk, ho⟩
  · rw [ho]
    exact (assign_new_exits hmax h value hnew).mono (fun _ _ hq => ⟨hq.1, hq.2.1, hq.2.2.2⟩)
      fun _ _ hq => ⟨hq.1, hq.2.1, hq.2.2.1.not_diverged⟩
  · rw [ho]
    refine Exits.ite (fun _ => Exits.ite (fun _ => ?_) fun _ => ?_) fun _ => ?_
    · refine Exits.bind (copying_exits value s) ?_
      rintro b t ⟨rfl, hs, hot⟩
      exact ⟨hs, setBucket_spec h hi hk b⟩
    · exact ⟨.refl _, rfl, fun h => by cases h⟩
    · exact ⟨.refl _, setBucket_spec h hi hk value⟩

omit [LawfulMapKey K] [LawfulCopyValue V] in
private theorem insertOrAssign_moved [CopyValue K] (key : K) (value : V) (withinKey : Bool) :
    (insertOrAssign false false key value withinKey : BoundM (HashMap maxBuckets K V) Unit) =
      insertOrAssignImpl key value withinKey := rfl

variable [CopyValue K] [LawfulCopyValue K]

theorem insertOrAssign_exits (hmax : maxBuckets ≤ usizeMax) (h : s.obj.WellFormed)
    (copyKey copyMapped : Bool) (key : K) (value : V) (withinKey : Bool) :
    MapExits (insertOrAssign copyKey copyMapped key value withinKey) s
      (fun m' => Assigned s.obj m' key value) := by
  unfold MapExits MapRuns insertOrAssign
  refine Exits.bind (passing_exits copyKey key s) ?_
  rintro key' t ⟨rfl, ht, hot⟩
  refine Exits.bind ((passing_exits copyMapped value t).mono (fun _ _ hq => hq) ?_) ?_
  · rintro e u ⟨hu, hou, he⟩
    exact ⟨ht.trans hu, hou.trans hot, he⟩
  rintro value' u ⟨rfl, hu, hou⟩
  have hobj : u.obj = s.obj := hou.trans hot
  refine (insertOrAssignImpl_exits hmax (hobj ▸ h) key' value' withinKey).mono ?_ ?_
  · rintro - s' ⟨hs, hw, ha⟩
    exact ⟨(ht.trans hu).trans hs, hw, hobj ▸ ha⟩
  · rintro e s' ⟨hs, ho, he⟩
    exact ⟨(ht.trans hu).trans hs, ho.trans hobj, he⟩

omit [LawfulCopyValue V] [LawfulCopyValue K] in
/-- The buckets `us` that are left to move go into a table with room for them. -/
private theorem reserveLoop_spec (hmax : maxBuckets ≤ usizeMax) {us : List (Option (K × V))}
    {i : ℕ} {next : HashMap maxBuckets K V} (hus : s.obj.buckets.items.drop i = us)
    (h : next.Arranged)
    (hroom : next.size + us.reduceOption.length < rehashThresholdFor next.bucketCount)
    (hle : next.size + us.reduceOption.length ≤ maxSize maxBuckets)
    (hd : us.reduceOption.Pairwise fun e f => ¬ SameKey e f)
    (hnew : ∀ e ∈ next.entries, ∀ f ∈ us.reduceOption, equal e.1 f.1 = false) :
    ∃ m', reserveLoop us.length i next s = .ok () { s with obj := m' } ∧ m'.WellFormed ∧
      ∀ e, e ∈ m'.entries ↔ e ∈ us.reduceOption ∨ e ∈ next.entries := by
  induction us generalizing i next s with
  | nil =>
    refine ⟨next, rfl, h.wellFormed (by simpa using hroom) (by simpa using hle), by simp⟩
  | cons slot us ih =>
    have hslot : s.obj.buckets.items[i]? = some slot := by
      have := congrArg (fun l : List _ => l[0]?) hus
      simpa using this
    have hrest : s.obj.buckets.items.drop (i + 1) = us := by
      rw [← List.drop_drop, hus]
      rfl
    rw [List.length_cons, reserveLoop]
    simp only [hslot]
    cases slot with
    | none => exact ih hrest h hroom hle hd hnew
    | some f =>
      simp only [List.reduceOption_cons_of_some, List.length_cons, List.pairwise_cons,
        List.mem_cons, forall_eq_or_imp] at hroom hle hd hnew
      have hnext : next.WellFormed := h.wellFormed (by omega) (by omega)
      have habsent : ∀ e ∈ next.entries, equal e.1 f.1 = false := fun e he => (hnew e he).1
      have hone : next.size + 1 < rehashThresholdFor next.bucketCount := by omega
      have hmost : next.size + 1 ≤ maxSize maxBuckets := by omega
      obtain ⟨m₁, hm₁, h₁, hc₁, hs₁, he₁⟩ := insertNew_room f.2 hmax
        (s := { ctx := s.ctx, obj := next }) h hone hmost habsent
      dsimp only at hc₁ hs₁
      have hins : insertOrAssign false false f.1 f.2 false { ctx := s.ctx, obj := next } =
          .ok () { ctx := s.ctx, obj := m₁ } := by
        rw [insertOrAssign_moved]
        rcases insertOrAssignImpl_eq (s := { ctx := s.ctx, obj := next }) hnext f.1 f.2 false with
          ⟨-, ho⟩ | ⟨i, e, hi, hk, -⟩
        · exact ho.trans hm₁
        · rw [habsent e (mem_entries.mpr ⟨i, hi⟩)] at hk
          cases hk
      simp only [hins]
      obtain ⟨m', hm', hw, he⟩ := ih (s := { s with
          obj := s.obj.setBucket i (movedFrom f.1, movedFrom f.2) }) (i := i + 1)
        (by simp only [setBucket, Vec.set_items]; rw [List.drop_set_of_lt (Nat.lt_succ_self i), hrest])
        h₁ (by rw [hs₁, hc₁]; omega) (by rw [hs₁]; omega) hd.2 (by
          intro e he g hg
          rcases (he₁ e).mp he with rfl | he
          · have := hd.1 g hg
            unfold SameKey at this
            simpa using this
          · exact (hnew e he).2 g hg)
      refine ⟨m', hm', hw, fun e => ?_⟩
      rw [he, he₁, List.reduceOption_cons_of_some, List.mem_cons]
      constructor
      · rintro (hmem | rfl | hmem)
        · exact Or.inl (Or.inr hmem)
        · exact Or.inl (Or.inl rfl)
        · exact Or.inr hmem
      · rintro ((rfl | hmem) | hmem)
        · exact Or.inr (Or.inl rfl)
        · exact Or.inl hmem
        · exact Or.inr (Or.inr hmem)

omit [LawfulCopyValue V] [LawfulCopyValue K] in
theorem reserve_exits (hmax : maxBuckets ≤ usizeMax) (h : s.obj.WellFormed) (count : ℕ) :
    MapExits (reserve count) s (fun m' => ∀ e, e ∈ m'.entries ↔ e ∈ s.obj.entries) := by
  have hspec := bucketCountFor_spec hmax count
  unfold MapExits MapRuns
  rw [reserve, bind_of_ok (get_apply s)]
  cases hb : bucketCountFor maxBuckets count with
  | error e =>
    rw [hb] at hspec
    exact ⟨.refl _, rfl, Error.IsLimit.not_diverged hspec.1⟩
  | ok desired =>
    rw [hb] at hspec
    obtain ⟨-, hp, -⟩ := hspec
    rw [ofExcept_bind rfl]
    refine Exits.ite (fun _ => ⟨.refl _, h, fun _ => Iff.rfl⟩) fun hlt => ?_
    refine Exits.bind ((fresh_exits hmax desired hp).mono (fun _ _ h => h) fun _ _ h =>
      ⟨h.1, h.2.1, h.2.2.1.not_diverged⟩) ?_
    rintro ⟨⟨⟩, buckets⟩ t ⟨⟨hs, harr, hcount, hnil⟩, ho⟩
    dsimp only at hs harr hcount hnil ⊢
    have hlen : s.obj.buckets.items.reduceOption.length = s.obj.size := by
      rw [length_reduceOption, h.size_eq]
    -- the live entries fit: their table is at most half as large
    have hroom : s.obj.size < rehashThresholdFor desired := by
      by_cases hc : s.obj.bucketCount = 0
      · have hzero : s.obj.size = 0 := by
          have := entries_of_bucketCount hc
          rw [← hlen]
          exact congrArg List.length this
        obtain ⟨k, hk, rfl⟩ := hp
        exact lt_rehashThresholdFor (by omega) (eight_le_pow hk)
      · exact Nat.lt_of_lt_of_le (h.below hc) (rehashThresholdFor_mono (by omega))
    obtain ⟨m', hm', hw, he⟩ := reserveLoop_spec (s := t) hmax (i := 0)
      (ho ▸ List.drop_zero : t.obj.buckets.items.drop 0 = s.obj.buckets.items) harr
        (by rw [hcount, hlen]; simpa using hroom) (by rw [hlen]; simpa using h.size_le)
      h.distinct.pairwise (by rw [hnil]; simp)
    have hloop : reserveLoop s.obj.bucketCount 0 { buckets := buckets } t =
        .ok () { t with obj := m' } := hm'
    rw [hloop]
    refine ⟨hs, hw, fun e => ?_⟩
    rw [he, hnil]
    simp [entries]

omit [LawfulMapKey K] [CopyValue V] [LawfulCopyValue V] [CopyValue K] [LawfulCopyValue K] in
theorem WellFormed.clear {m : HashMap maxBuckets K V} (h : m.WellFormed) :
    m.clear.WellFormed ∧ m.clear.entries = [] := by
  have hnone : ∀ (i : ℕ) (e : K × V), ¬ m.clear.buckets.items[i]? = some (some e) := by
    intro i e hi
    obtain ⟨slot, -, hs⟩ := List.mem_map.mp (List.mem_of_getElem? hi)
    cases hs
  have hload : load m.clear.buckets.items = 0 :=
    List.countP_eq_zero.mpr fun slot hs => by
      obtain ⟨_, -, rfl⟩ := List.mem_map.mp hs
      simp
  have hcount : m.clear.bucketCount = m.bucketCount := by
    simp [HashMap.clear, bucketCount, Vec.size]
  refine ⟨⟨?_, hload.symm, Nat.zero_le _, fun hc => ?_, fun i j e f hi => absurd hi (hnone i e),
    fun i e hi => absurd hi (hnone i e)⟩, ?_⟩
  · rw [hcount]
    exact h.power
  · rw [hcount] at hc ⊢
    exact Nat.lt_of_le_of_lt (Nat.zero_le _) (h.below hc)
  · refine List.eq_nil_iff_forall_not_mem.mpr fun e he => ?_
    obtain ⟨i, hi⟩ := mem_entries.mp he
    exact hnone i e hi

/-- The first entry with the key, in a list of entries. -/
def find (es : List (K × V)) (key : K) : Option V := (es.find? fun e => equal e.1 key).map Prod.snd

/-- The entries of another map, which have distinct keys, override those there are. -/
private theorem copyLoop_exits (hmax : maxBuckets ≤ usizeMax) {es : List (K × V)}
    (hd : es.Pairwise fun e f => ¬ SameKey e f) (h : s.obj.WellFormed) :
    Exits (copyLoop es s)
      (fun _ s' => s.ctx.Spent s'.ctx ∧ s'.obj.WellFormed ∧
        ∀ k, s'.obj.lookup k = (find es k).or (s.obj.lookup k))
      (fun e s' => s.ctx.Spent s'.ctx ∧ e.code ≠ .diverged) := by
  induction es generalizing s with
  | nil => exact ⟨.refl _, h, fun k => by simp [find]⟩
  | cons f es ih =>
    obtain ⟨key, value⟩ := f
    rw [List.pairwise_cons] at hd
    unfold copyLoop
    refine Exits.bind ((copying_exits key s).mono (fun _ _ hq => hq) fun _ _ hq => ⟨hq.1, hq.2.2⟩) ?_
    rintro k' t ⟨rfl, ht, hot⟩
    refine Exits.bind ((copying_exits value t).mono (fun _ _ hq => hq) fun _ _ hq =>
      ⟨ht.trans hq.1, hq.2.2⟩) ?_
    rintro v' u ⟨rfl, hu, hou⟩
    have hobj : u.obj = s.obj := hou.trans hot
    have hsu := ht.trans hu
    refine Exits.bind ((insertOrAssign_exits hmax (hobj ▸ h) false false k' v' false).mono
      (fun _ _ hq => hq) fun _ _ hq => ⟨hsu.trans hq.1, hq.2.2⟩) ?_
    rintro ⟨⟩ w ⟨hw, hwf, ha⟩
    have hsw := hsu.trans hw
    refine (ih hd.2 hwf).mono ?_ (fun _ _ hq => ⟨hsw.trans hq.1, hq.2⟩)
    rintro - s' ⟨hs', hwf', hl⟩
    refine ⟨hsw.trans hs', hwf', fun k => ?_⟩
    have hassigned := ha.lookup (hobj ▸ h.distinct) hwf.distinct k
    rw [hl, hassigned, hobj]
    by_cases hk : equal k' k = true
    · have hnone : find es k = none := by
        unfold find
        rw [List.find?_eq_none.mpr, Option.map_none]
        intro e he hek
        exact hd.1 e he (LawfulMapKey.trans hk (LawfulMapKey.symm hek))
      rw [hnone, if_pos hk]
      simp [find, hk]
    · rw [if_neg hk]
      simp [find, hk]

omit [LawfulMapKey K] [CopyValue V] [LawfulCopyValue V] [CopyValue K] [LawfulCopyValue K] in
private theorem max_power {m : HashMap maxBuckets K V} (h : m.WellFormed) {minimum n : ℕ}
    (hspec : n * 2 ≤ minimum ∧ ∃ k, 3 ≤ k ∧ minimum = 2 ^ k) :
    ∃ k, 3 ≤ k ∧ max m.bucketCount minimum = 2 ^ k := by
  rcases Nat.le_total m.bucketCount minimum with hle | hle
  · rw [Nat.max_eq_right hle]
    exact hspec.2
  · rw [Nat.max_eq_left hle]
    obtain ⟨k, hk, rfl⟩ := hspec.2
    have := eight_le_pow hk
    exact h.power.resolve_left (by omega)

theorem copyFrom_exits (hmax : maxBuckets ≤ usizeMax) (h : s.obj.WellFormed)
    {other : HashMap maxBuckets K V} (ho : other.WellFormed) {sameObject : Bool}
    (hsame : sameObject = true → other = s.obj) : MapExits (copyFrom other sameObject) s
      (fun m' => ∀ k, m'.lookup k = other.lookup k) := by
  unfold MapExits MapRuns
  rw [copyFrom, bind_of_ok (get_apply s)]
  refine Exits.ite (fun hs => ⟨.refl _, h, fun k => by rw [hsame hs]⟩) fun _ => ?_
  refine Exits.ite (fun hz => ?_) fun hz => ?_
  · obtain ⟨hw, hnil⟩ := h.clear
    refine ⟨.refl _, hw, fun k => ?_⟩
    have hother : other.entries = [] := by
      have hlen : other.entries.length = other.size := by
        rw [entries, length_reduceOption, ho.size_eq]
      rw [hz] at hlen
      exact List.length_eq_zero_iff.mp hlen
    simp only [lookup, hnil, hother]
  have hspec := bucketCountFor_spec hmax other.size
  cases hb : bucketCountFor maxBuckets other.size with
  | error e =>
    rw [hb] at hspec
    exact ⟨.refl _, rfl, Error.IsLimit.not_diverged hspec.1⟩
  | ok minimum =>
    rw [hb] at hspec
    rw [ofExcept_bind rfl]
    have hp := max_power h ⟨hspec.1, hspec.2.1⟩
    refine Exits.bind ((fresh_exits hmax _ hp).mono (fun _ _ h => h) fun _ _ h =>
      ⟨h.1, h.2.1, h.2.2.1.not_diverged⟩) ?_
    rintro ⟨⟨⟩, buckets⟩ t ⟨⟨hs, harr, hcount, hnil⟩, hot⟩
    dsimp only at hs harr hcount hnil ⊢
    have htemp : WellFormed ({ buckets } : HashMap maxBuckets K V) := by
      refine harr.wellFormed ?_ (Nat.zero_le _)
      exact lt_rehashThresholdFor (Nat.zero_le _) harr.eight_le
    have hloop := copyLoop_exits hmax (s := { ctx := t.ctx, obj := { buckets } })
      (ho.distinct.pairwise : other.entries.Pairwise _) htemp
    refine Exits.bind ((onTemporary_exits hloop).mono (fun _ _ h => h) ?_) ?_
    · rintro e s' ⟨⟨_, hs', he⟩, hos⟩
      exact ⟨hs.trans hs', hos.trans hot, he⟩
    · rintro ⟨⟨⟩, temp⟩ s' ⟨⟨hs', hw, hl⟩, -⟩
      refine ⟨hs.trans hs', hw, fun k => (hl k).trans ?_⟩
      have hempty : ({ buckets } : HashMap maxBuckets K V).lookup k = none := by
        rw [lookup, hnil]
        rfl
      rw [hempty, Option.or_none]
      rfl

section
variable {K V : Type} [MapKey K] [LawfulMapKey K] [CopyValue K] [CopyValue V]
variable {s : Bound (HashMap maxBuckets K V)} {E : Error → Prop} {R : V → V → Prop}

/-- What copies of keys and values do in the context of `s`. -/
structure Copies (s : Bound (HashMap maxBuckets K V)) (E : Error → Prop) (R : V → V → Prop) :
    Prop where
  limit {e : Error} : e.IsLimit → E e
  key (k : K) {ctx : Context} : s.ctx.Spent ctx → Exits (copyValue k ctx)
    (fun _ ctx' => ctx.Spent ctx') (fun e ctx' => ctx.Spent ctx' ∧ E e)
  value (v : V) {ctx : Context} : s.ctx.Spent ctx → Exits (copyValue v ctx)
    (fun w ctx' => ctx.Spent ctx' ∧ R v w) (fun e ctx' => ctx.Spent ctx' ∧ E e)

omit [MapKey K] [LawfulMapKey K] [CopyValue K] [CopyValue V] in
private theorem copying_copies {α : Type} [CopyValue α] {a : α} {Q : α → Context → Prop}
    {E : Error → Context → Prop} (h : Exits (copyValue a s.ctx) Q E) :
    Exits (copying a s) (fun b s' => Q b s'.ctx ∧ s'.obj = s.obj)
      (fun e s' => E e s'.ctx ∧ s'.obj = s.obj) := by
  unfold copying
  cases ho : copyValue a s.ctx with
  | ok b ctx => exact ⟨h.ok ho, rfl⟩
  | error e ctx => exact ⟨h.error ho, rfl⟩

private theorem copyLoop_copies (hmax : maxBuckets ≤ usizeMax) (hc : Copies s E R)
    {es : List (K × V)} {t : Bound (HashMap maxBuckets K V)} (ht : s.ctx.Spent t.ctx)
    (h : t.obj.WellFormed) :
    Exits (copyLoop es t)
      (fun _ s' => s.ctx.Spent s'.ctx ∧ s'.obj.WellFormed ∧
        ∀ f ∈ s'.obj.entries, f ∈ t.obj.entries ∨ ∃ e ∈ es, R e.2 f.2)
      (fun e s' => s.ctx.Spent s'.ctx ∧ E e) := by
  induction es generalizing t with
  | nil => exact ⟨ht, h, fun f hf => Or.inl hf⟩
  | cons e es ih =>
    obtain ⟨key, value⟩ := e
    unfold copyLoop
    refine Exits.bind ((copying_copies (hc.key key ht)).mono (fun _ _ hq => hq) fun _ _ hq =>
      ⟨ht.trans hq.1.1, hq.1.2⟩) ?_
    rintro k' u ⟨hu, hou⟩
    have htu := ht.trans hu
    refine Exits.bind ((copying_copies (hc.value value htu)).mono (fun _ _ hq => hq) fun _ _ hq =>
      ⟨htu.trans hq.1.1, hq.1.2⟩) ?_
    rintro v' w ⟨⟨hw, hr⟩, how⟩
    have htw := htu.trans hw
    have hobj : w.obj = t.obj := how.trans hou
    refine Exits.bind ((insertOrAssign_moved_exits hmax (hobj ▸ h) k' v').mono
      (fun _ _ hq => hq) fun _ _ hq => ⟨htw.trans hq.1, hc.limit hq.2.2.1⟩) ?_
    rintro ⟨⟩ x ⟨hx, hwf, -, k₀, -, hmem⟩
    refine (ih (htw.trans hx) hwf).mono ?_ (fun _ _ hq => hq)
    rintro - s' ⟨hs', hwf', hes⟩
    refine ⟨hs', hwf', fun f hf => ?_⟩
    rcases hes f hf with hf | ⟨e, he, hr'⟩
    · rcases (hmem f).mp hf with rfl | ⟨hf, -⟩
      · exact Or.inr ⟨(key, value), List.mem_cons_self, hr⟩
      · exact Or.inl (hobj ▸ hf)
    · exact Or.inr ⟨e, List.mem_cons_of_mem _ he, hr'⟩

/-- A copy of a map holds copies of its values. -/
theorem copyFrom_copies (hmax : maxBuckets ≤ usizeMax) (hc : Copies s E R)
    (h : s.obj.WellFormed) (other : HashMap maxBuckets K V) :
    MapRuns E (copyFrom other false) s
      (fun m' => ∀ f ∈ m'.entries, ∃ e ∈ other.entries, R e.2 f.2) := by
  unfold MapRuns
  rw [copyFrom, bind_of_ok (get_apply s)]
  simp only [Bool.false_eq_true, if_false]
  refine Exits.ite (fun hz => ?_) fun hz => ?_
  · obtain ⟨hw, hnil⟩ := h.clear
    refine ⟨.refl _, hw, fun f hf => ?_⟩
    rw [hnil] at hf
    cases hf
  have hspec := bucketCountFor_spec hmax other.size
  cases hb : bucketCountFor maxBuckets other.size with
  | error e =>
    rw [hb] at hspec
    exact ⟨.refl _, rfl, hc.limit hspec.1⟩
  | ok minimum =>
    rw [hb] at hspec
    rw [ofExcept_bind rfl]
    have hp := max_power h ⟨hspec.1, hspec.2.1⟩
    refine Exits.bind ((fresh_exits hmax _ hp).mono (fun _ _ h => h) fun _ _ h =>
      ⟨h.1, h.2.1, hc.limit h.2.2.1⟩) ?_
    rintro ⟨⟨⟩, buckets⟩ t ⟨⟨hs, harr, hcount, hnil⟩, hot⟩
    dsimp only at hs harr hcount hnil ⊢
    have htemp : WellFormed ({ buckets } : HashMap maxBuckets K V) := by
      refine harr.wellFormed ?_ (Nat.zero_le _)
      exact lt_rehashThresholdFor (Nat.zero_le _) harr.eight_le
    have hloop : Exits (copyLoop other.entries { ctx := t.ctx, obj := { buckets } }) _ _ :=
      copyLoop_copies hmax hc hs htemp
    refine Exits.bind ((onTemporary_exits hloop).mono (fun _ _ h => h) ?_) ?_
    · rintro e s' ⟨⟨_, hs', he⟩, hos⟩
      exact ⟨hs', hos.trans hot, he⟩
    · rintro ⟨⟨⟩, temp⟩ s' ⟨⟨hs', hw, hl⟩, -⟩
      refine ⟨hs', hw, fun f hf => ?_⟩
      rcases hl f hf with hf | hf
      · rw [hnil] at hf
        cases hf
      · exact hf

end

end HashMap
end Protocyte
