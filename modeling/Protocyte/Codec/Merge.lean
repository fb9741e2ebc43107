import Protocyte.Codec.Layers

/-! Merging a message: what a run does to the context, how deep the input nests when the recursion
limit is met, and what a failure keeps. -/
namespace Protocyte
open Foundation.Computation

variable {Sub : ℕ → Type} {O α : Type} {n : ℕ}

/-- A check that does not fail for nesting. -/
def Plain (x : Except Error Unit) : Prop :=
  ∀ e, x = .error e → e.code ≠ .recursionLimit ∧ e.code ≠ .diverged

namespace Plain

theorem ok : Plain (.ok ()) := nofun

theorem error {e : Error} (hr : e.code ≠ .recursionLimit) (hd : e.code ≠ .diverged) :
    Plain (.error e) := by
  intro e' h
  cases h
  exact ⟨hr, hd⟩

theorem ite {c : Prop} [Decidable c] {x y : Except Error Unit} (hx : Plain x) (hy : Plain y) :
    Plain (if c then x else y) := by
  split
  · exact hx
  · exact hy

theorem bind {x y : Except Error Unit} (hx : Plain x) (hy : Plain y) :
    Plain (x >>= fun _ => y) := by
  intro e h
  cases hxe : x with
  | ok u =>
    rw [hxe] at h
    exact hy e h
  | error e' =>
    rw [hxe] at h
    cases h
    exact hx _ hxe

theorem forM {f : α → Except Error Unit} (hf : ∀ a, Plain (f a)) (l : List α) :
    Plain (l.forM f) := by
  induction l with
  | nil => exact ok
  | cons a l ih => exact (hf a).bind ih

theorem forValues {visit : (kind : ValueKind) → kind.Carrier Sub → Except Error Unit}
    (hvisit : ∀ kind v, Plain (visit kind v)) (kind : FieldKind) (v : FieldState Sub kind) :
    Plain (FieldState.forValues visit kind v) := by
  cases kind with
  | implicit kind h =>
    cases kind with
    | value kind => exact hvisit kind v
    | byteArray max fixed => exact ok
  | explicit kind required oneof =>
    cases kind with
    | byteArray max fixed => exact ok
    | value kind =>
      cases v with
      | none => exact ok
      | some v => exact hvisit kind v
  | «repeated» kind packed storage => exact forM (hvisit kind) v.val
  | map key value maxBuckets => exact forM (fun e => (hvisit _ _).bind (hvisit _ _)) v.val.entries

theorem withFieldError {x : Except Error Unit} (number : ℕ) (hx : Plain x) :
    Plain (withFieldError number x) := by
  cases x with
  | ok u => exact ok
  | error e =>
    obtain ⟨hr, hd⟩ := hx e rfl
    exact error hr hd

end Plain

theorem MessageData.validate_plain {M : MessageModel}
    {nested : (id : ℕ) → Sub id → Except Error Unit} (hnested : ∀ id v, Plain (nested id v))
    (m : MessageData M Sub) : Plain (m.validate nested) := by
  refine .bind (.forM (fun i => ?_) _) (.bind (.forM (fun i => ?_) _) (.bind (.forM (fun i => ?_) _)
    (.bind (.forM (fun i => ?_) _) (.forM (fun i => ?_) _))))
  · unfold FieldState.validateFixedArray
    split
    · split
      · exact .error nofun nofun
      · exact .ok
    all_goals exact .ok
  · refine .forValues (fun kind v => ?_) _ _
    cases kind with
    | scalar t => exact .ite (.error nofun nofun) .ok
    | string | bytes | message id boxed => exact .ok
  · unfold FieldState.validateRequired
    split
    · exact .error nofun nofun
    all_goals exact .ok
  · refine .forValues (fun kind v => ?_) _ _
    cases kind with
    | string => exact .ite .ok (.error nofun nofun)
    | scalar t | bytes | message id boxed => exact .ok
  · refine .forValues (fun kind v => ?_) _ _
    cases kind with
    | message id boxed => exact .withFieldError _ (hnested id v)
    | scalar t | string | bytes => exact .ok

theorem Message.validate_plain (S : Schema) (levels id : ℕ) (m : Message S levels id) :
    Plain (validate S levels id m) := by
  induction levels generalizing id with
  | zero => exact m.elim
  | succ levels ih => exact MessageData.validate_plain ih m

theorem Contract.through_parseBudget {E : O → O → Prop} {Q : O → α → O → Prop} {x : ParseM O α}
    (a b c d e : ℕ) (hx : Contract n E Q x) :
    Contract n E Q (Protocyte.through (Reader.parseBudget · a b c d e) x) :=
  .through (fun _ _ k h => ⟨k, h.wrapped_parseBudget⟩) hx

/-- The levels that are left. -/
def Context.levels (ctx : Context) : ℕ := ctx.limits.maxRecursionDepth - ctx.recursionDepth

namespace Message

variable (S : Schema) (preserve : Bool)

/-- What the emitted code of a message of `levels + 1` levels is given. -/
def ops (levels : ℕ) : MessageOps (Message S levels) where
  create := create S levels
  copier := copier S preserve levels
  mergeFieldsFrom := mergeFieldsFrom S preserve levels

theorem create_codes (levels id : ℕ) (e : Error) (h : create S levels id = .error e) :
    e.code ≠ .recursionLimit ∧ (e.code = .diverged → levels + 1 ≤ 1) := by
  cases levels with
  | zero =>
    cases h
    exact ⟨nofun, fun _ => Nat.le_refl 1⟩
  | succ levels => cases h

/-- A message of so many levels needs as many levels of the context. -/
theorem mergeFieldsFrom_runs (levels id : ℕ) :
    Runs levels (mergeFieldsFrom S preserve levels id) := by
  induction levels generalizing id with
  | zero => exact fun s => ⟨.inr ⟨nofun, .refl _, fun _ => .inl (Nat.zero_le 1)⟩, trivial⟩
  | succ levels ih =>
    have hops : (ops S preserve levels).Runs levels := ⟨create_codes S levels, ih⟩
    exact forEachField_runs fun tag htag =>
      .withField _ (MessageData.mergeFieldFrom_atomic hops preserve htag tag.wireType).runs

theorem mergeFrom_runs (levels id : ℕ) : Runs levels (mergeFrom S preserve levels id) := by
  intro s
  have hcheck : Quiet levels (checkReader (fun reader =>
      if reader.limitReached then .error { code := .sizeLimit, offset := reader.position }
      else .ok ()) : ParseM (Message S levels id) Unit) := by
    refine .checkReader fun r e h => ?_
    split at h
    · cases h
      exact ⟨nofun, nofun⟩
    · cases h
  have hmerge := (mergeFieldsFrom_runs S preserve levels id).bind fun _ => hcheck.runs
  have hvalidate : Runs levels (do ofExcept (validate S levels id (← get).obj) :
      ParseM (Message S levels id) Unit) := by
    refine Quiet.bind_runs .get fun s => (Contract.ofExcept fun e h => ?_).runs
    obtain ⟨hr, hd⟩ := validate_plain S levels id s.obj e h
    exact ⟨hr, fun he => absurd he hd⟩
  exact Runs.bind (hmerge.through_parseBudget _ _ _ _ _) (fun _ => hvalidate) s

theorem mergeFieldsFrom_layered (levels id : ℕ) :
    Layered S (.message id) (mergeFieldsFrom S preserve levels id) := by
  induction levels generalizing id with
  | zero => exact fun s => nofun
  | succ levels ih =>
    have hops : (ops S preserve levels).Layered S :=
      ⟨fun id e h => (create_codes S levels id e h).1, ih⟩
    exact forEachField_layered fun tag htag =>
      .withField _ (MessageData.mergeFieldFrom_fielded hops preserve tag htag)

variable {S} in
/-- What is read through `merge_from`'s own reader, and no byte is left. -/
private theorem layered_parseBudget {layer : Layer} {x : ParseM O Unit} (hx : Layered S layer x)
    (total a b c d : ℕ) (s : Parse O) :
    Exits (Protocyte.through (Reader.parseBudget · total a b c d) (do
        x
        checkReader fun reader =>
          if reader.limitReached then .error { code := .sizeLimit, offset := reader.position }
          else .ok ()) s)
      (fun _ _ => ¬S.Nests (s.levels + 1) layer s.reader.rest)
      (fun e _ => e.code = .recursionLimit → S.Nests (s.levels + 1) layer s.reader.rest) := by
  have hxs := hx { s with reader := .parseBudget s.reader total a b c d }
  unfold Protocyte.through
  rw [bind_apply]
  dsimp only
  cases h : x { s with reader := .parseBudget s.reader total a b c d } with
  | error e t =>
    intro he
    have hnests : S.Nests (s.levels + 1) layer (s.reader.rest.take total) := hxs.error h he
    rw [← List.take_append_drop total s.reader.rest]
    exact hnests.append _
  | ok u t =>
    obtain ⟨⟨bs, ht⟩, heof, hn⟩ := hxs.ok h
    have hmoved := ht.moved.wrapped_parseBudget
    have huncounted := ht.moved.uncounted
    dsimp only
    unfold checkReader
    cases hlimit : t.reader.limitReached with
    | true =>
      simp only [hlimit, if_true]
      exact nofun
    | false =>
      simp only [hlimit, Bool.false_eq_true, if_false]
      intro hnests
      refine hn ?_
      have hend : t.reader.wrapped.eof = true := by
        cases hr : t.reader with
        | parseBudget inner remaining a' b' c' d' =>
          rw [hr] at heof hlimit
          change (remaining == 0 || inner.eof) = true at heof
          change (remaining == 0 && !inner.eof) = false at hlimit
          change inner.eof = true
          cases hinner : inner.eof with
          | true => rfl
          | false =>
            rw [hinner] at heof hlimit
            simp only [Bool.or_false] at heof
            rw [heof] at hlimit
            cases hlimit
        | slice r | limited inner n | ref inner | staged r b =>
          rw [hr] at huncounted
          cases huncounted
      have hrest : s.reader.rest.drop bs.length = [] :=
        hmoved.rest.symm.trans (Reader.rest_of_eof hend)
      have hle : bs.length ≤ (s.reader.rest.take total).length := ht.moved.le
      have hall : s.reader.rest.take total = s.reader.rest := by
        rw [List.length_take] at hle
        exact List.take_of_length_le (by have := List.drop_eq_nil_iff.mp hrest; omega)
      change S.Nests (s.levels + 1) layer (s.reader.rest.take total)
      rw [hall]
      exact hnests

theorem mergeFrom_nests (levels id : ℕ) (s : Parse (Message S levels id)) :
    Exits (mergeFrom S preserve levels id s)
      (fun _ _ => ¬S.Nests (s.levels + 1) (.message id) s.reader.rest)
      (fun e _ => e.code = .recursionLimit →
        S.Nests (s.levels + 1) (.message id) s.reader.rest) := by
  refine Exits.bind (layered_parseBudget (mergeFieldsFrom_layered S preserve levels id) _ _ _ _ _ s)
    fun _ t hn => ?_
  rw [bind_of_ok (get_apply t)]
  cases hv : validate S levels id t.obj with
  | ok u => exact hn
  | error e => exact fun he => absurd he (validate_plain S levels id t.obj e hv).1

theorem parseInto_nests (levels id : ℕ) (s : Parse (Message S levels id)) :
    Exits (parseInto S preserve levels id s)
      (fun _ _ => ¬S.Nests (s.levels + 1) (.message id) s.reader.rest)
      (fun e _ => e.code = .recursionLimit →
        S.Nests (s.levels + 1) (.message id) s.reader.rest) := by
  unfold parseInto
  cases hcreate : create S levels id with
  | error e => exact fun he => absurd he (create_codes S levels id e hcreate).1
  | ok fresh =>
    have hmerge := mergeFrom_nests S preserve levels id { s with obj := fresh }
    dsimp only
    cases h : mergeFrom S preserve levels id { s with obj := fresh } with
    | ok u t => exact hmerge.ok h
    | error e t =>
      have he := hmerge.error h
      exact he

theorem parse_nests (levels id : ℕ) (input : List UInt8) (ctx : Context) :
    Exits (parse S preserve levels id input ctx)
      (fun _ _ => ¬S.Nests (ctx.levels + 1) (.message id) input)
      (fun e _ => e.code = .recursionLimit → S.Nests (ctx.levels + 1) (.message id) input) := by
  unfold parse
  cases hcreate : create S levels id with
  | error e => exact fun he => absurd he (create_codes S levels id e hcreate).1
  | ok output =>
    have hparse := parseInto_nests S preserve levels id
      { ctx, obj := output, reader := .slice { data := input, pos_le := start_le input } }
    dsimp only
    split
    · next h => exact hparse.ok h
    · next h => exact hparse.error h

end Message

/-- So many times. -/
def times (x : ParseM O Unit) : ℕ → ParseM O Unit
  | 0 => pure ()
  | k + 1 => do
    x
    times x k

/-- The loop takes one occurrence after the other, and a failed one leaves the object alone. -/
theorem fieldLoop_occurrences {step : Tag → ParseM O Unit} (hstep : ∀ s : Parse O,
      Exits ((do step (← onReader readTag) : ParseM O Unit) s)
        (fun _ t => t.reader.rest.length < s.reader.rest.length) (fun _ t => t.obj = s.obj))
    (m : ℕ) (s : Parse O) (hs : s.reader.rest.length < m) : Exits (fieldLoop step m s)
      (fun _ t => ∃ k, times (do step (← onReader readTag)) k s = .ok () t ∧ t.reader.eof = true)
      (fun e t => ∃ k u, times (do step (← onReader readTag)) k s = .ok () u ∧
        u.reader.eof = false ∧ (do step (← onReader readTag) : ParseM O Unit) u = .error e t ∧
        t.obj = u.obj) := by
  induction m generalizing s with
  | zero => exact absurd hs (Nat.not_lt_zero _)
  | succ m ih =>
    have hloop : fieldLoop step (m + 1) s = if s.reader.eof then .ok () s
        else ((do step (← onReader readTag) : ParseM O Unit) >>= fun _ => fieldLoop step m) s := by
      rw [bind_assoc]
      rfl
    rw [hloop]
    cases heof : s.reader.eof with
    | true => exact ⟨0, rfl, heof⟩
    | false =>
      cases h : (do step (← onReader readTag) : ParseM O Unit) s with
      | error e t =>
        have hfailed : ((do step (← onReader readTag) : ParseM O Unit) >>= fun _ =>
          fieldLoop step m) s = .error e t := bind_of_error h
        simp only [Bool.false_eq_true, if_false, hfailed]
        exact ⟨0, s, rfl, heof, h, (hstep s).error h⟩
      | ok u t =>
        have hpassed : ((do step (← onReader readTag) : ParseM O Unit) >>= fun _ =>
          fieldLoop step m) s = fieldLoop step m t := bind_of_ok h
        have hlt := (hstep s).ok h
        have htimes : ∀ k, times (do step (← onReader readTag)) (k + 1) s =
            times (do step (← onReader readTag)) k t := fun k => bind_of_ok h
        simp only [Bool.false_eq_true, if_false, hpassed]
        refine (ih t (by omega)).mono ?_ ?_
        · intro _ v ⟨k, hk, hv⟩
          exact ⟨k + 1, (htimes k).trans hk, hv⟩
        · intro e v ⟨k, w, hk, hrest⟩
          exact ⟨k + 1, w, (htimes k).trans hk, hrest⟩

namespace Message

variable (S : Schema) (preserve : Bool)

/-- A field occurrence: its tag, and what the message does with it. -/
def mergeOccurrence : (levels id : ℕ) → ParseM (Message S levels id) Unit
  | 0, _ => diverged
  | levels + 1, _ => do
    let tag ← onReader readTag
    withField tag.fieldNumber
      (MessageData.mergeFieldFrom (ops S preserve levels) preserve tag.fieldNumber tag.wireType)

/-- The parse with `merge_from`'s own reader around the reader. -/
def budgeted {O : Type} (s : Parse O) : Parse O :=
  { s with
    reader := .parseBudget s.reader s.ctx.limits.maxTotalBytes
      s.ctx.limits.maxRepeatedElements s.ctx.limits.maxMapEntries 0 0 }

private theorem through_budget {O : Type} {x : ParseM O Unit} {s : Parse O} {Q : O → Prop}
    {E : Error → O → Prop}
    (hx : Exits (x (budgeted s)) (fun _ t => Q t.obj) (fun e t => E e t.obj)) :
    Exits (through (Reader.parseBudget · s.ctx.limits.maxTotalBytes
      s.ctx.limits.maxRepeatedElements s.ctx.limits.maxMapEntries 0 0) x s)
      (fun _ t => Q t.obj) (fun e t => E e t.obj) := by
  unfold through
  dsimp only
  split
  · next h =>
    have ho := hx.ok h
    exact ho
  · next h =>
    have ho := hx.error h
    exact ho

private theorem mergeOccurrence_exits (levels id : ℕ) (s : Parse (Message S (levels + 1) id)) :
    Exits (mergeOccurrence S preserve (levels + 1) id s)
      (fun _ t => t.reader.rest.length < s.reader.rest.length) (fun _ t => t.obj = s.obj) := by
  have hops : (ops S preserve levels).Runs levels :=
    ⟨create_codes S levels, mergeFieldsFrom_runs S preserve levels⟩
  refine Exits.bind ((readTag_exits s).mono (fun _ _ h => h) fun _ _ h => h.2) ?_
  intro tag t ⟨_, ho, hnumber, hlt⟩
  have hfield := Contract.withField tag.fieldNumber
    (MessageData.mergeFieldFrom_atomic (M := S id) hops preserve hnumber tag.wireType)
  refine Exits.mono (hfield t) ?_ ?_
  · exact fun _ _ h => Nat.lt_of_le_of_lt h.1.rest_le hlt
  · exact fun _ _ h => h.2.trans ho

private theorem mergeFieldsFrom_occurrences (levels id : ℕ) (s : Parse (Message S levels id)) :
    Exits (mergeFieldsFrom S preserve levels id s)
      (fun _ t => ∃ k, times (mergeOccurrence S preserve levels id) k s = .ok () t ∧
        t.reader.eof = true)
      (fun e t => ∃ k u, times (mergeOccurrence S preserve levels id) k s = .ok () u ∧
        u.reader.eof = false ∧ mergeOccurrence S preserve levels id u = .error e t ∧
        t.obj = u.obj) := by
  cases levels with
  | zero => exact s.obj.elim
  | succ levels =>
    exact fieldLoop_occurrences (mergeOccurrence_exits S preserve levels id) _ s
      (Nat.lt_succ_self _)

variable {S preserve} {levels id : ℕ}

/-- What the first `k` field occurrences make of the message. -/
def MergedFirst (S : Schema) (preserve : Bool) (s : Parse (Message S levels id)) (k : ℕ)
    (u : Parse (Message S levels id)) : Prop :=
  times (mergeOccurrence S preserve levels id) k (budgeted s) = .ok () u

/-- A merge takes one field occurrence after the other. When one fails, the message is what the ones
before it made of it; after the last one only the final checks may fail. -/
theorem mergeFrom_occurrences (s : Parse (Message S levels id)) :
    Exits (mergeFrom S preserve levels id s)
      (fun _ t => ∃ k u, MergedFirst S preserve s k u ∧ u.reader.eof = true ∧ t.obj = u.obj)
      (fun e t => ∃ k u, MergedFirst S preserve s k u ∧ t.obj = u.obj ∧
        (u.reader.eof = true ∨ ∃ v, mergeOccurrence S preserve levels id u = .error e v)) := by
  have hmerge := mergeFieldsFrom_occurrences S preserve levels id (budgeted s)
  refine Exits.bind (Q := fun _ t => ∃ k u, MergedFirst S preserve s k u ∧ u.reader.eof = true ∧
    t.obj = u.obj) (through_budget (Q := fun o => ∃ k u, MergedFirst S preserve s k u ∧
      u.reader.eof = true ∧ o = u.obj) (E := fun e o => ∃ k u, MergedFirst S preserve s k u ∧
        o = u.obj ∧
          (u.reader.eof = true ∨ ∃ v, mergeOccurrence S preserve levels id u = .error e v))
      (Exits.bind (hmerge.mono (fun _ _ h => h) ?_) ?_)) ?_
  · intro e t ⟨k, u, hk, _, hv, ho⟩
    exact ⟨k, u, hk, ho, .inr ⟨t, hv⟩⟩
  · intro _ t ⟨k, hk, heof⟩
    unfold checkReader
    dsimp only
    split
    · exact ⟨k, t, hk, heof, rfl⟩
    · exact ⟨k, t, hk, rfl, .inl heof⟩
  · intro _ t ⟨k, u, hk, heof, ho⟩
    rw [bind_of_ok (get_apply t)]
    cases validate S levels id t.obj with
    | ok a => exact ⟨k, u, hk, heof, ho⟩
    | error e => exact ⟨k, u, hk, ho, .inl heof⟩

end Message

end Protocyte
