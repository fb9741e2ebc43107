import Protocyte.Codec.Depth

/-! Unknown fields by their groups: what is accepted nests no deeper than the levels left, and what is
rejected for its nesting nests deeper. -/
namespace Protocyte
open Foundation.Computation Foundation.Wire

variable {S : Schema} {Sub : ℕ → Type} {O α β : Type}

/-- A failure for nesting has met more levels than are left. -/
def Overruns (S : Schema) (d : ℕ) (x : ParseM O α) (s : Parse O) : Prop :=
  Exits (x s) (fun _ _ => True) fun e _ => e.code = .recursionLimit → S.Nests d .group s.reader.rest

theorem readTag_words : Words readTag fun tag bs => Key bs tag.fieldNumber tag.wireType.code := by
  intro r tag r' h
  obtain ⟨bs, xs, hr, hkey, rfl⟩ := readTag_eq_ok.mp h
  exact ⟨bs, xs, hr, hkey, rfl⟩

/-- A tag that has been read, and the parse past it. -/
def Tagged (t : Parse O) (tag : Tag) (u : Parse O) : Prop :=
  ∃ ks, Past t u ks ∧ Key ks tag.fieldNumber tag.wireType.code

theorem readTag_tagged (t : Parse O) :
    Exits (onReader readTag t) (Tagged t) (fun e _ => e.code ≠ .recursionLimit) := by
  refine Exits.intro ?_ ?_
  · intro tag u h
    obtain ⟨r, hr, rfl⟩ := onReader_eq_ok.mp h
    obtain ⟨ks, xs, hks, hkey, hadvance⟩ := readTag_words _ _ _ hr
    exact ⟨ks, .advance hks hadvance, hkey⟩
  · intro e u h
    obtain ⟨r, hr, rfl⟩ := onReader_eq_error.mp h
    exact ((Forward.readTag.moves t.reader).error hr).1

theorem Tagged.lt {t u : Parse O} {tag : Tag} (h : Tagged t tag u) :
    u.reader.rest.length < t.reader.rest.length := by
  obtain ⟨ks, hu, hkey⟩ := h
  have hpos := hkey.length_pos
  rw [hu.rest, List.length_append]
  omega

/-- What a field of a layer leaves: a success is past it, and a failure for nesting has met more
levels than are left. -/
def FieldedAt (S : Schema) (layer : Layer) (tag : Tag) (x : ParseM O Unit) (s : Parse O) : Prop :=
  Exits (x s) (fun _ t => ∃ bs, Past s t bs ∧ tag.Whole bs)
    (fun e _ => e.code = .recursionLimit → S.Enters (S.Nests s.levels) layer tag s.reader.rest)

theorem enters_group {d : ℕ} {layer : Layer} (f : ℕ) {xs : List UInt8} (h : S.Nests d .group xs) :
    S.Enters (S.Nests d) layer ⟨f, .sgroup⟩ xs :=
  ⟨.group, xs, Schema.opens_sgroup S layer f, .group xs, h⟩

/-- One iteration of the loop over the fields of a group. -/
private theorem overruns_succ {tagged : ParseM O Tag} {close member : Tag → ParseM O Unit}
    {loop : ParseM O Unit} {t : Parse O}
    (htagged : Exits (tagged t) (Tagged t) (fun e _ => e.code ≠ .recursionLimit))
    (hclose : ∀ tag u, Exits (close tag u) (fun _ _ => True) (fun e _ => e.code ≠ .recursionLimit))
    (hmember : ∀ tag u, Tagged t tag u → FieldedAt S .group tag (member tag) u)
    (hloop : ∀ v, v.reader.rest.length < t.reader.rest.length → Overruns S (v.levels + 1) loop v) :
    Overruns S (t.levels + 1) (do
      let tag ← tagged
      if tag.wireType = .egroup then
        popRecursion
        close tag
      else
        member tag
        loop) t := by
  refine Exits.bind (htagged.mono (fun _ _ h => h) fun _ _ h he => absurd he h) ?_
  intro tag u hu
  have hmember := hmember tag u hu
  have hlt := hu.lt
  obtain ⟨ks, hu, hkey⟩ := hu
  refine Exits.ite (fun _ => ?_) fun _ => ?_
  · rw [bind_of_ok (popRecursion_apply u)]
    exact (hclose tag _).mono (fun _ _ _ => trivial) fun _ _ h he => absurd he h
  · rw [hu.rest, ← hu.levels]
    refine Exits.bind (Exits.mono hmember (fun _ _ h => h) fun _ _ h he => .here hkey (h he)) ?_
    intro _ v ⟨bs, hv, hbs⟩
    refine Exits.mono (hloop v (Nat.lt_of_le_of_lt hv.length_le hlt)) (fun _ _ _ => trivial) ?_
    intro e w h he
    rw [hv.rest, ← hv.levels]
    exact .later hkey hbs (h he)

/-- A group, when the loop over its fields runs one level down. -/
private theorem overruns_push {push loop : ParseM O Unit} {s : Parse O} (hpush : Opening push)
    (hloop : Overruns S (s.descended.levels + 1) loop s.descended) :
    Overruns S s.levels (do push; loop) s := by
  refine Exits.bind ((hpush s).mono (fun _ _ h => h) ?_) ?_
  · intro e _ h he
    rw [h he]
    trivial
  · intro _ t ⟨hlt, ht⟩
    subst ht
    rw [Parse.levels_descended (Nat.sub_pos_of_lt hlt)]
    exact hloop

private theorem exits_unwinding {x : ParseM O α} {f : ℕ} {s : Parse O} {Q : α → Parse O → Prop}
    {C : ErrorCode → Prop} (h : Exits (x s) Q (fun e _ => C e.code)) :
    Exits (unwinding f x s) Q (fun e _ => C e.code) := by
  unfold unwinding
  cases hx : x s with
  | ok a t => exact h.ok hx
  | error e t =>
    have he := h.error hx
    exact he

private theorem exits_popOnError {x : ParseM O α} {s : Parse O} {Q : α → Parse O → Prop}
    {C : ErrorCode → Prop} (h : Exits (x s) Q (fun e _ => C e.code)) :
    Exits (popOnError x s) Q (fun e _ => C e.code) := by
  unfold popOnError
  cases hx : x s with
  | ok a t => exact h.ok hx
  | error e t =>
    have he := h.error hx
    exact he

private theorem skipFieldWith_overruns {g : ℕ → ParseM O Unit} {s : Parse O} {layer : Layer}
    (w : WireType) (f : ℕ) (hg : Overruns S s.levels (g f) s) :
    Exits (skipFieldWith g w f s) (fun _ _ => True) (fun e _ => e.code = .recursionLimit →
      S.Enters (S.Nests s.levels) layer ⟨f, w⟩ s.reader.rest) := by
  have hread : ∀ {x : ReaderM Unit}, Forward x → Exits (withField f (onReader x) s)
      (fun _ _ => True) (fun e _ => e.code = .recursionLimit →
        S.Enters (S.Nests s.levels) layer ⟨f, w⟩ s.reader.rest) := by
    intro x hx
    refine Exits.intro (fun _ _ _ => trivial) fun e t h he => ?_
    obtain ⟨e', h', rfl⟩ := withField_eq_error.mp h
    obtain ⟨r, hr, -⟩ := onReader_eq_error.mp h'
    exact absurd he ((hx.moves s.reader).error hr).1
  cases w with
  | varint => exact hread (Forward.readVarint.bind fun _ => .pure ())
  | i64 => exact hread (.skip 8)
  | len => exact hread (Forward.readLengthDelimitedSize.bind fun n => .skip n)
  | i32 => exact hread (.skip 4)
  | sgroup =>
    refine Exits.intro (fun _ _ _ => trivial) fun e t h he => ?_
    obtain ⟨e', h', rfl⟩ := withField_eq_error.mp h
    exact enters_group f (hg.error h' he)
  | egroup | reserved6 | reserved7 => exact nofun

private theorem skipFieldWithin_fielded (layer : Layer) (n : ℕ) (w : WireType) (f : ℕ)
    {s : Parse O} (hg : Overruns S s.levels (skipGroupWithin n f) s) :
    FieldedAt S layer ⟨f, w⟩ (skipFieldWith (skipGroupWithin n) w f) s := by
  refine Exits.intro ?_ ?_
  · intro _ t h
    obtain ⟨bs, xs, k, hbs, ⟨u, hu⟩, -, rfl⟩ := skipFieldWithin_accepts n w f s t h
    have hpast : Past s { s with reader := s.reader.advance bs.length } bs := .advance hbs rfl
    exact ⟨bs, ⟨hpast.moved, hpast.rest, rfl, rfl⟩, _, u, hu⟩
  · exact fun e t h => (skipFieldWith_overruns w f hg).error h

private theorem skipGroupLoop_overruns (n f : ℕ) (t : Parse O) :
    Overruns S (t.levels + 1) (skipGroupLoop n f) t := by
  induction n generalizing f t with
  | zero => exact nofun
  | succ n ih =>
    rw [skipGroupLoop_succ]
    refine overruns_succ ?_ ?_ ?_ fun v _ => ih f v
    · exact exits_unwinding (C := (· ≠ .recursionLimit)) (readTag_tagged t)
    · intro tag u
      refine Exits.ite (fun _ => ?_) fun _ => trivial
      exact nofun
    · intro tag u _
      refine exits_unwinding (C := fun c => c = .recursionLimit → _) (skipFieldWithin_fielded .group n _ _ ?_)
      exact overruns_push ((Opening.push _).withField _) (ih _ _)

theorem skipField_fielded {layer : Layer} {tag : Tag}
    (hopens : ∀ inner, S.opens layer tag = some inner → tag.wireType = .sgroup) :
    Fielded S layer tag (skipField tag.wireType tag.fieldNumber : ParseM O Unit) := by
  intro s
  have hg := overruns_push (S := S) (s := s) ((Opening.push tag.fieldNumber).withField tag.fieldNumber)
    (skipGroupLoop_overruns (s.reader.rest.length + 1) tag.fieldNumber s.descended)
  have hfielded := skipFieldWithin_fielded layer _ tag.wireType tag.fieldNumber hg
  refine Exits.intro ?_ fun e t h => hfielded.error h
  intro _ t h
  obtain ⟨bs, hpast, hbs⟩ := hfielded.ok h
  obtain ⟨cs, xs, k, hcs, ⟨u, hu⟩, -, -⟩ :=
    skipField_accepts tag.wireType tag.fieldNumber s t h
  refine ⟨bs, hpast, hbs, ?_⟩
  rw [hcs]
  exact Schema.not_enters_body hu hopens xs

/-- What storing does besides reading. -/
private theorem exits_onBound {x : BoundM ByteVec α} (hx : EditsFreely x) (s : Parse ByteVec) :
    Exits (onBound x s) (fun _ t => Past s t []) (fun e _ => e.code ≠ .recursionLimit) := by
  refine Exits.intro ?_ ?_
  · intro a t h
    obtain ⟨b, hb, rfl⟩ := onBound_eq_ok.mp h
    exact .of_same rfl ((hx s.toBound).ok hb).1.balanced
  · intro e t h
    obtain ⟨b, hb, rfl⟩ := onBound_eq_error.mp h
    exact ((hx s.toBound).error hb).2.1

private theorem exits_failing {x : ParseM ByteVec Unit} {f : ℕ} {s : Parse ByteVec}
    {Q : Unit → Parse ByteVec → Prop} {C : ErrorCode → Prop}
    (h : Exits (x s) Q (fun e _ => C e.code)) : Exits (failing f x s) Q (fun e _ => C e.code) := by
  unfold failing
  cases hx : x s with
  | ok a t => exact h.ok hx
  | error e t =>
    have he := h.error hx
    dsimp only
    cases hb : onBound (Vec.resizeForOverwrite 0 s.obj.size) t with
    | ok a u => exact he
    | error e' u => exact he

private theorem readFrom_codes (n : ℕ) (s : Parse ByteVec) :
    Exits (UnknownFieldWriter.readFrom n s) (fun _ _ => True)
      (fun e _ => e.code ≠ .recursionLimit) := by
  unfold UnknownFieldWriter.readFrom
  split
  · exact nofun
  split
  · trivial
  have hresize := exits_onBound (.resizeForOverwrite 0 (s.obj.size + n)) s
  dsimp only
  cases hb : onBound (Vec.resizeForOverwrite 0 (s.obj.size + n)) s with
  | error e t => exact hresize.error hb
  | ok a t =>
    dsimp only
    cases h : onReader (Reader.read n) t with
    | ok bytes u => trivial
    | error e u =>
      obtain ⟨r, hr, -⟩ := onReader_eq_error.mp h
      have he := (((Forward.read n).moves t.reader).error hr).1
      dsimp only
      cases hc : onBound (Vec.resizeForOverwrite 0 s.obj.size) u with
      | ok a v => exact he
      | error e' v => exact he

private theorem readUnknownValue_overruns {g : ℕ → ParseM ByteVec Unit} {s : Parse ByteVec}
    (layer : Layer) (w : WireType) (f : ℕ) (hg : Overruns S s.levels (g f) s) :
    Exits (readUnknownValue g w f s) (fun _ _ => True) (fun e _ => e.code = .recursionLimit →
      S.Enters (S.Nests s.levels) layer ⟨f, w⟩ s.reader.rest) := by
  have hread : ∀ {x : ReaderM ℕ} {next : ℕ → ParseM ByteVec Unit}, Forward x →
      (∀ v t, Exits (next v t) (fun _ _ => True) (fun e _ => e.code ≠ .recursionLimit)) →
      Exits ((onReader x >>= next) s) (fun _ _ => True) (fun e _ => e.code = .recursionLimit →
        S.Enters (S.Nests s.levels) layer ⟨f, w⟩ s.reader.rest) := by
    intro x next hx hnext
    refine Exits.bind (Q := fun _ _ => True) (Exits.intro (fun _ _ _ => trivial) ?_) fun v t _ => ?_
    · intro e t h he
      obtain ⟨r, hr, -⟩ := onReader_eq_error.mp h
      exact absurd he ((hx.moves s.reader).error hr).1
    · exact (hnext v t).mono (fun _ _ _ => trivial) fun _ _ h he => absurd he h
  have hstore : ∀ {x : BoundM ByteVec Unit} (t : Parse ByteVec), EditsFreely x →
      Exits (onBound x t) (fun _ _ => True) (fun e _ => e.code ≠ .recursionLimit) :=
    fun t hx => (exits_onBound hx t).mono (fun _ _ _ => trivial) fun _ _ h => h
  cases w with
  | varint => exact hread .readVarint fun v t => hstore t (.writeVarint v)
  | i64 => exact hread (.readFixed 8) fun v t => hstore t (.writeFixed 8 v)
  | len =>
    refine hread .readLengthDelimitedSize fun v t => ?_
    exact Exits.bind (hstore t (.writeVarint v)) fun _ u _ => readFrom_codes v u
  | i32 => exact hread (.readFixed 4) fun v t => hstore t (.writeFixed 4 v)
  | sgroup => exact hg.mono (fun _ _ _ => trivial) fun _ _ h he => enters_group f (h he)
  | egroup | reserved6 | reserved7 => exact nofun

private theorem readUnknownFieldWithin_fielded (layer : Layer) {n : ℕ} (w : WireType) {f : ℕ}
    {s : Parse ByteVec} (hf : f ≤ maxNumber) (hs : s.reader.rest.length < n)
    (hg : ∀ t, Past s t [] → Overruns S t.levels (readGroupWithin n f) t) :
    FieldedAt S layer ⟨f, w⟩ (readUnknownFieldWith (readGroupWithin n) w f) s := by
  refine Exits.intro ?_ ?_
  · intro _ t h
    obtain ⟨bs, xs, u, hbs, hu, ht⟩ := (readUnknownFieldWithin_exits w hf hs).ok h
    have hpast : Past s { s with reader := s.reader.advance bs.length } bs := .advance hbs rfl
    have hreader : t.reader = s.reader.advance bs.length := ht.reader
    refine ⟨bs, ⟨?_, ?_, ht.ctx.balanced⟩, _, u, hu⟩
    · rw [hreader]
      exact hpast.moved
    · rw [hreader]
      exact hpast.rest
  · intro e t h
    have hexits : Exits (readUnknownFieldWith (readGroupWithin n) w f s) (fun _ _ => True)
        (fun e _ => e.code = .recursionLimit →
          S.Enters (S.Nests s.levels) layer ⟨f, w⟩ s.reader.rest) := by
      refine exits_failing (C := fun c => c = .recursionLimit → _) ?_
      refine Exits.bind ((exits_onBound (.writeTag f w) s).mono (fun _ _ h => h) ?_) ?_
      · exact fun _ _ h he => absurd he h
      · intro _ t ht
        have hvalue := readUnknownValue_overruns layer w f (hg t ht)
        have hrest : t.reader.rest = s.reader.rest := ht.rest.symm
        rw [hrest, ht.levels] at hvalue
        exact hvalue
    exact hexits.error h

private theorem readGroupLoop_overruns (n f : ℕ) (t : Parse ByteVec)
    (hn : t.reader.rest.length < n) : Overruns S (t.levels + 1) (readGroupLoop n f) t := by
  induction n generalizing f t with
  | zero => exact nofun
  | succ n ih =>
    rw [readGroupLoop_succ]
    refine overruns_succ ?_ ?_ ?_ fun v hv => ih f v (by omega)
    · exact exits_popOnError (C := (· ≠ .recursionLimit)) (readTag_tagged t)
    · intro tag u
      refine Exits.ite (fun _ => ?_) fun _ => ?_
      · exact nofun
      · exact (exits_onBound (.writeTag _ _) u).mono (fun _ _ _ => trivial) fun _ _ h => h
    · intro tag u hu
      have hlt := hu.lt
      obtain ⟨ks, -, hkey⟩ := hu
      refine exits_popOnError (C := fun c => c = .recursionLimit → _)
        (readUnknownFieldWithin_fielded .group _ hkey.2.2.1 (by omega) fun v hv => ?_)
      have hle := hv.length_le
      refine overruns_push (.push _) (ih _ _ ?_)
      rw [Parse.descended_reader]
      omega

theorem readUnknownField_fielded {layer : Layer} {tag : Tag} (hf : tag.fieldNumber ≤ maxNumber)
    (hopens : ∀ inner, S.opens layer tag = some inner → tag.wireType = .sgroup) :
    Fielded S layer tag (readUnknownField tag.wireType tag.fieldNumber) := by
  intro s
  have hfielded := readUnknownFieldWithin_fielded (S := S) layer tag.wireType hf
    (Nat.lt_succ_self s.reader.rest.length) fun t ht => overruns_push (.push _)
      (readGroupLoop_overruns _ _ _ (Nat.lt_succ_of_le ht.length_le))
  refine Exits.intro ?_ fun e t h => hfielded.error h
  intro _ t h
  obtain ⟨bs, hpast, hbs⟩ := hfielded.ok h
  obtain ⟨cs, xs, u, hcs, hu, -⟩ := (readUnknownField_exits tag.wireType hf s).ok h
  refine ⟨bs, hpast, hbs, ?_⟩
  rw [hcs]
  exact Schema.not_enters_body hu hopens xs

end Protocyte
