import Protocyte.Codec.Raised
import Protocyte.Codec.RoundTrip

/-! The recursion counter over whole runs: what it is when they end, and which input is rejected for
its nesting. -/
namespace Protocyte
open Foundation.Computation

variable {O α : Type} {n : ℕ}

namespace Context

/-- The history starts here. -/
def started (ctx : Context) : Context := { ctx with deepest := 0, peak := ctx.recursionDepth }

/-- What a run leaves of the recursion counter. It is `limited` when it was rejected for its
nesting, which is when a message, an entry or a group was met that nests deeper than the limit. -/
structure Returns (ctx ctx' : Context) (limited : Prop) : Prop where
  recursionDepth : ctx'.recursionDepth = ctx.recursionDepth
  peak_le : ctx'.peak ≤ max ctx.recursionDepth ctx.limits.maxRecursionDepth
  limited_iff : limited ↔ ctx.limits.maxRecursionDepth < ctx'.deepest

theorem Ran.returns {ctx ctx' : Context} (h : ctx.started.Ran ctx') : ctx.Returns ctx' False where
  recursionDepth := h.balanced.recursionDepth
  peak_le := h.peak_le
  limited_iff := by
    have hle : ctx'.deepest ≤ max 0 ctx.limits.maxRecursionDepth := h.deepest_le
    rw [Nat.zero_max] at hle
    exact iff_of_false id (Nat.not_lt.mpr hle)

theorem Failed.returns {D : Prop} {ctx ctx' : Context} {e : Error}
    (h : ctx.started.Failed D e ctx') :
    ctx.Returns ctx' (e.code = .recursionLimit) ∧ (e.code = .diverged → D) := by
  rcases h with ⟨he, hx⟩ | ⟨he, hr, hd⟩
  · refine ⟨⟨hx.balanced.recursionDepth, hx.peak, ?_⟩, fun hd => ?_⟩
    · exact iff_of_true he hx.deepest
    · rw [he] at hd
      cases hd
  · obtain ⟨hdepth, hpeak, hlimited⟩ := hr.returns
    refine ⟨⟨hdepth, hpeak, ?_⟩, hd⟩
    rw [← hlimited]
    exact iff_false_intro he

end Context

/-- Both exits of the parse of a layer. It is rejected for its nesting only when the bytes nest
deeper than the levels left, and accepted only when they do not. Any other failure happens with more
levels too; a parse into enough levels does not give up. -/
def Returning (S : Schema) (n : ℕ) (layer : Layer) (x : ParseM O α) : Prop := ∀ s : Parse O,
  Exits (x { s with ctx := s.ctx.started })
    (fun _ t => s.ctx.Returns t.ctx False ∧ ¬S.Nests (s.ctx.levels + 1) layer s.reader.rest)
    (fun e t => s.ctx.Returns t.ctx (e.code = .recursionLimit) ∧
      (e.code = .recursionLimit → S.Nests (s.ctx.levels + 1) layer s.reader.rest) ∧
      (e.code ≠ .recursionLimit →
        ∀ k, x { s with ctx := s.ctx.started.raised k } = .error e (t.raised k)) ∧
      (e.code = .diverged → s.ctx.Shallow n))

theorem Runs.returning {S : Schema} {layer : Layer} {x : ParseM O α} (hx : Runs n x)
    (hnests : ∀ s, Exits (x s) (fun _ _ => ¬S.Nests (s.levels + 1) layer s.reader.rest)
      (fun e _ => e.code = .recursionLimit → S.Nests (s.levels + 1) layer s.reader.rest))
    (hraised : ∀ k, Persists k x) : Returning S n layer x := by
  intro s
  have hruns := hx { s with ctx := s.ctx.started }
  have hbytes := hnests { s with ctx := s.ctx.started }
  unfold ContractAt at hruns
  refine Exits.intro ?_ ?_
  · exact fun _ t h => ⟨(hruns.ok h).1.ctx.returns, hbytes.ok h⟩
  · intro e t h
    obtain ⟨hreturns, hshallow⟩ := (hruns.error h).1.returns
    refine ⟨hreturns, hbytes.error h, fun he k => ?_, hshallow⟩
    exact ((hraised k _).error h).resolve_left he

namespace Message

variable (S : Schema) (preserve : Bool)

theorem parseInto_runs (levels id : ℕ) : Runs levels (parseInto S preserve levels id) := by
  intro s
  unfold ContractAt parseInto
  cases hcreate : create S levels id with
  | error e =>
    obtain ⟨hr, hd⟩ := create_codes S levels id e hcreate
    refine ⟨.inr ⟨hr, .refl _, fun he => .inl ?_⟩, trivial⟩
    have := hd he
    omega
  | ok fresh =>
    have hmerge := mergeFrom_runs S preserve levels id { s with obj := fresh }
    unfold ContractAt at hmerge
    dsimp only
    cases h : mergeFrom S preserve levels id { s with obj := fresh } with
    | ok u t =>
      obtain ⟨⟨hctx, hreader⟩, -⟩ := hmerge.ok h
      exact ⟨⟨hctx, hreader⟩, trivial⟩
    | error e t => exact ⟨(hmerge.error h).1, trivial⟩

theorem parseInto_returning (levels id : ℕ) :
    Returning S levels (.message id) (parseInto S preserve levels id) :=
  (parseInto_runs S preserve levels id).returning (parseInto_nests S preserve levels id)
    fun _ => parseInto_persists S preserve levels id

theorem parse_returns (levels id : ℕ) (input : List UInt8) (ctx : Context) :
    Exits (parse S preserve levels id input ctx.started)
      (fun _ ctx' => ctx.Returns ctx' False ∧ ¬S.Nests (ctx.levels + 1) (.message id) input)
      (fun e ctx' => ctx.Returns ctx' (e.code = .recursionLimit) ∧
        (e.code = .recursionLimit → S.Nests (ctx.levels + 1) (.message id) input) ∧
        (e.code = .diverged → ctx.Shallow levels)) := by
  unfold parse
  cases hcreate : create S levels id with
  | error e =>
    obtain ⟨hr, hd⟩ := create_codes S levels id e hcreate
    have hfailed : ctx.started.Failed (ctx.Shallow levels) e ctx.started :=
      .inr ⟨hr, .refl _, fun he => .inl (by have := hd he; omega)⟩
    exact ⟨hfailed.returns.1, fun he => absurd he hr, hfailed.returns.2⟩
  | ok output =>
    have hparse := parseInto_returning S preserve levels id
      { ctx, obj := output, reader := .slice { data := input, pos_le := start_le input } }
    dsimp only
    split
    · next h => exact hparse.ok h
    · next h =>
      obtain ⟨hreturns, hnests, -, hshallow⟩ := hparse.error h
      exact ⟨hreturns, hnests, hshallow⟩

theorem parse_more_levels {levels id k : ℕ} {input : List UInt8} {ctx ctx' : Context}
    {m : Message S levels id}
    (hm : parse S preserve levels id input (ctx.started.raised k) = .ok m ctx') :
    Exits (parse S preserve levels id input ctx.started)
      (fun m' _ => m' = m ∧ ¬S.Nests (ctx.levels + 1) (.message id) input)
      (fun e _ => e.code = .recursionLimit ∧ S.Nests (ctx.levels + 1) (.message id) input) := by
  have hreturns := parse_returns S preserve levels id input ctx
  have hpersists := parse_persists (k := k) S preserve levels id input ctx.started
  refine Exits.intro ?_ ?_
  · intro m' c h
    have hk := hpersists.ok h
    rw [hm] at hk
    obtain ⟨rfl, -⟩ := EStateM.Result.ok.inj hk
    exact ⟨rfl, (hreturns.ok h).2⟩
  · intro e c h
    rcases hpersists.error h with he | hk
    · exact ⟨he, (hreturns.error h).2.1 he⟩
    · rw [hm] at hk
      cases hk

theorem parse_written {levels id n : ℕ} {m : Message S levels id} {ctx : Context}
    (hvalid : validate S levels id m = .ok ()) (hstorable : Storable S preserve levels id m)
    (hsize : encodedSize S levels id m = .ok n) (hlimit : n ≤ ctx.limits.maxTotalBytes)
    (haffords : Affords S ctx n) :
    Exits (parse S preserve levels id (encoding S levels id m) ctx.started)
      (fun m' _ => Same S levels id m m' ∧
        ¬S.Nests (ctx.levels + 1) (.message id) (encoding S levels id m))
      (fun e _ => e.code = .recursionLimit ∧
        S.Nests (ctx.levels + 1) (.message id) (encoding S levels id m)) := by
  obtain ⟨hlen, _, _, _, _⟩ := encodedSize_serialize m n hvalid hsize
  obtain ⟨_, hle, _⟩ := (measures S levels id m n).mp hsize
  rw [hlen] at hle
  have hparse := parse_encoding S preserve hvalid hstorable hlen hle ctx.started hlimit
  have hnests := parse_returns S preserve levels id (encoding S levels id m) ctx
  have hafforded : Affords S ctx.started n :=
    ⟨haffords.grants, haffords.message_le, haffords.string_le, haffords.unknown_le,
      haffords.elements_le, haffords.entries_le, haffords.fits⟩
  refine (hparse.and hnests).mono (fun _ _ h => ⟨h.1, h.2.2⟩) ?_
  intro e _ ⟨he, hreturns⟩
  have hcode : e.code = .recursionLimit := he.resolve_right fun h => h.2 hafforded
  exact ⟨hcode, hreturns.2.1 hcode⟩

/-- Every parse and every merge gives the levels it took back, never exceeds the limit, and meets it
exactly on messages and groups that nest too deep: these are never accepted, and nothing else is
rejected for its nesting. What would be accepted with more levels is rejected for nothing else, and
so is what a message is written as, where the context affords so many bytes. -/
theorem recursion_returns (levels id : ℕ) :
    Returning S levels (.message id) (mergeFrom S preserve levels id) ∧
      Returning S levels (.message id) (parseInto S preserve levels id) ∧
      (∀ (input : List UInt8) (ctx : Context),
        Exits (parse S preserve levels id input ctx.started)
          (fun _ ctx' => ctx.Returns ctx' False ∧ ¬S.Nests (ctx.levels + 1) (.message id) input)
          (fun e ctx' => ctx.Returns ctx' (e.code = .recursionLimit) ∧
            (e.code = .recursionLimit → S.Nests (ctx.levels + 1) (.message id) input) ∧
            (e.code = .diverged → ctx.Shallow levels)) ∧
        ∀ k m ctx', parse S preserve levels id input (ctx.started.raised k) = .ok m ctx' →
          Exits (parse S preserve levels id input ctx.started)
            (fun m' _ => m' = m ∧ ¬S.Nests (ctx.levels + 1) (.message id) input)
            (fun e _ => e.code = .recursionLimit ∧
              S.Nests (ctx.levels + 1) (.message id) input)) ∧
      ∀ (m : Message S levels id) (n : ℕ) (ctx : Context), validate S levels id m = .ok () →
        Storable S preserve levels id m → encodedSize S levels id m = .ok n →
        n ≤ ctx.limits.maxTotalBytes → Affords S ctx n →
        Exits (parse S preserve levels id (encoding S levels id m) ctx.started)
          (fun m' _ => Same S levels id m m' ∧
            ¬S.Nests (ctx.levels + 1) (.message id) (encoding S levels id m))
          (fun e _ => e.code = .recursionLimit ∧
            S.Nests (ctx.levels + 1) (.message id) (encoding S levels id m)) := by
  refine ⟨(mergeFrom_runs S preserve levels id).returning (mergeFrom_nests S preserve levels id)
      fun _ => mergeFrom_persists S preserve levels id,
    parseInto_returning S preserve levels id,
    fun input ctx => ⟨parse_returns S preserve levels id input ctx, fun k m ctx' hm => ?_⟩, ?_⟩
  · exact parse_more_levels S preserve hm
  · intro m n ctx hvalid hstorable hsize hlimit haffords
    exact parse_written S preserve hvalid hstorable hsize hlimit haffords

/-- A list of three messages, which nest two deep. -/
def nestedList : List UInt8 := [18, 2, 18, 0]

def withLevels (levels : ℕ) : Context :=
  { limits := { maxRecursionDepth := levels, maxUnknownFieldBytes_le := unknownFieldBytes_le } }

/-- Its parse with so many levels. -/
@[irreducible] def parseNestedList (levels : ℕ) :
    EStateM.Result Error Context (Message listSchema 3 0) :=
  parse listSchema true 3 0 nestedList (withLevels levels).started

private theorem parseNestedList_one :
    Exits (parseNestedList 1) (fun _ _ => False) (fun e _ => e.code = .recursionLimit) := by
  decide +kernel

private theorem parseNestedList_written : Exits (parseNestedList 2)
    (fun m _ => encodedSize listSchema 3 0 m = .ok 4 ∧ encoding listSchema 3 0 m = nestedList)
    (fun _ _ => False) := by
  decide +kernel

/-- The list nests too deep for one level, and fits in two. -/
theorem recursion_returns_nestedList :
    Exits (parseNestedList 1) (fun _ _ => False) (fun e ctx' => e.code = .recursionLimit ∧
        ctx'.recursionDepth = 0 ∧ listSchema.Nests 2 (.message 0) nestedList) ∧
      Exits (parseNestedList 2) (fun _ ctx' => ctx'.recursionDepth = 0 ∧
        ¬listSchema.Nests 3 (.message 0) nestedList) (fun _ _ => False) := by
  obtain ⟨_, _, hparse, hwritten⟩ := recursion_returns listSchema true 3 0
  have hdepth : ∀ levels, Exits (parseNestedList levels) (fun _ ctx' => ctx'.recursionDepth = 0)
      (fun _ ctx' => ctx'.recursionDepth = 0) := by
    intro levels
    unfold parseNestedList
    exact (hparse nestedList (withLevels levels)).1.mono (fun _ _ h => h.1.recursionDepth)
      fun _ _ h => h.1.recursionDepth
  cases h : parseNestedList 2 with
  | error e ctx' => exact (parseNestedList_written.error h).elim
  | ok m ctx' =>
    obtain ⟨hsize, hencoding⟩ := parseNestedList_written.ok h
    constructor
    · -- What two levels accept, one level can only reject for its nesting.
      have hmore : (withLevels 1).started.raised 1 = (withLevels 2).started := rfl
      have hlimited : Exits (parseNestedList 1) (fun _ _ => True)
          (fun e _ => e.code = .recursionLimit ∧ listSchema.Nests 2 (.message 0) nestedList) := by
        unfold parseNestedList at h ⊢
        rw [← hmore] at h
        exact ((hparse nestedList (withLevels 1)).2 1 m ctx' h).mono (fun _ _ _ => trivial)
          fun _ _ h => h
      refine ((hdepth 1).and (hlimited.and parseNestedList_one)).mono (fun _ _ h => h.2.2) ?_
      exact fun _ _ ⟨hdepth, ⟨he, hnests⟩, _⟩ => ⟨he, hdepth, hnests⟩
    · have hvalid : validate listSchema 3 0 m = .ok () ∧ Storable listSchema true 3 0 m := by
        unfold parseNestedList at h
        exact parse_storable listSchema true h
      have haffords : Affords listSchema (withLevels 2) 4 :=
        ⟨fun _ => rfl, by decide, by decide, by decide, by decide, by decide, listSchema_fits 4⟩
      have hagain := hwritten m 4 (withLevels 2) hvalid.1 hvalid.2 hsize (by decide) haffords
      rw [hencoding] at hagain
      have hdeep := hdepth 2
      unfold parseNestedList at h hdeep
      rw [h] at hagain hdeep
      exact ⟨hdeep, hagain.2⟩

end Message

end Protocyte
