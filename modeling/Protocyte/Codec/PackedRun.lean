import Protocyte.Codec.WellFormed

/-! Packed runs of well-formed values: what a run makes of the field and of the unknown fields. -/
namespace Protocyte
open Foundation.Computation Foundation.Wire
open Foundation.LittleEndian (ofBytes)

variable {O : Type} {Sub : ℕ → Type}

/-- A scalar with the bytes it has. A closed enumeration is read as a varint first. -/
structure SpelledScalar (t : ScalarType) where
  bytes : List UInt8
  value : t.Value
  raw : ℕ
  encodes : t.Encodes bytes value
  closed : t.isClosed = true → Varint bytes raw ∧ value = BitVec.ofNat t.width raw

namespace SpelledScalar

variable {t : ScalarType}

/-- The value, unless it is none of its enumeration. -/
def accepted (v : SpelledScalar t) : Option t.Value :=
  if t.closedInvalid v.value then none else some v.value

/-- What is stored of a value that is none of its enumeration. -/
def diverted (preserve : Bool) (f : ℕ) (v : SpelledScalar t) : List UInt8 :=
  if t.closedInvalid v.value ∧ preserve then (Tree.varint f v.raw).encode else []

theorem accepted_of_invalid {v : SpelledScalar t} (h : t.closedInvalid v.value = true) :
    v.accepted = none := if_pos h

theorem accepted_of_valid {v : SpelledScalar t} (h : ¬t.closedInvalid v.value = true) :
    v.accepted = some v.value := if_neg h

theorem diverted_of_invalid {v : SpelledScalar t} (h : t.closedInvalid v.value = true) (f : ℕ) :
    v.diverted true f = (Tree.varint f v.raw).encode := if_pos ⟨h, rfl⟩

theorem diverted_of_valid {v : SpelledScalar t} (h : ¬t.closedInvalid v.value = true)
    (preserve : Bool) (f : ℕ) : v.diverted preserve f = [] := if_neg fun hc => h hc.1

theorem diverted_false (v : SpelledScalar t) (f : ℕ) : v.diverted false f = [] :=
  if_neg fun hc => Bool.false_ne_true hc.2

theorem bytes_pos (v : SpelledScalar t) : 0 < v.bytes.length := by
  have h := v.encodes
  unfold ScalarType.Encodes at h
  split at h
  · next width hw =>
    rw [h.1]
    cases t with
    | double | fixed64 | sfixed64 | float | fixed32 | sfixed32 =>
      cases hw
      decide
    | int32 | int64 | uint32 | uint64 | openEnum | closedEnum values | sint32 | sint64 | bool =>
      cases hw
  · obtain ⟨n, hn, -⟩ := h
    exact hn.1.length_pos

theorem length_of_fixedWidth (v : SpelledScalar t) {width : ℕ} (h : t.fixedWidth = some width) :
    v.bytes.length = width ∧ v.value = BitVec.ofNat t.width (ofBytes v.bytes) := by
  have henc := v.encodes
  unfold ScalarType.Encodes at henc
  rw [h] at henc
  exact henc

theorem closedInvalid_of_not_isClosed (h : t.isClosed = false) (v : t.Value) :
    t.closedInvalid v = false := by
  cases t with
  | closedEnum values => cases h
  | _ => rfl

end SpelledScalar

namespace Takes

variable {B : Bounds} {s : Parse O} {t : ScalarType} {c : ℕ}

theorem readAcceptedScalar (preserve : Bool) (unknown : Lens O Bytes) {read : ReaderM t.Value}
    {f : ℕ} (hf : 0 < f ∧ f ≤ maxNumber) (v : SpelledScalar t)
    (hread : t.isClosed = false → Reads read v.bytes v.value)
    (hroom : B.Stores ((unknown.get s.obj).val.length + (v.diverted preserve f).length)) :
    Takes B (readAcceptedScalar preserve unknown t read f) s v.bytes (fun a o => a = v.accepted ∧
      ∃ storage : Bytes, storage.val = (unknown.get s.obj).val ++ v.diverted preserve f ∧
        o = unknown.set storage s.obj) c := by
  have hsame : s.obj = unknown.set (unknown.get s.obj) s.obj := (unknown.set_get s.obj).symm
  unfold Protocyte.readAcceptedScalar
  refine ite (fun hclosed => ?_) fun hopen => ?_
  · obtain ⟨hraw, hvalue⟩ := v.closed hclosed
    refine (onReader (Reads.varint hraw)).andThen fun a u _ ⟨ha, hu⟩ => ?_
    rw [ha, ← hvalue, ← hu]
    rw [← hu] at hsame hroom
    refine ite (fun hinvalid => ?_) fun hvalid => ?_
    · rw [v.accepted_of_invalid hinvalid]
      cases preserve with
      | false =>
        rw [v.diverted_false, List.append_nil]
        exact pure ⟨rfl, unknown.get u.obj, rfl, hsame⟩
      | true =>
        rw [v.diverted_of_invalid hinvalid] at hroom ⊢
        have htoNat : (UInt64.ofNat v.raw).toNat = v.raw := Nat.mod_eq_of_lt hraw.2.2
        have hadd := MutableUnknownFieldSet.addVarint_appends hf (UInt64.ofNat v.raw)
          { ctx := u.ctx, obj := (unknown.comp storageLens).get u.obj }
        rw [htoNat] at hadd
        refine (zoom _ (onBound (Q := fun _ storage => storage.items =
          (unknown.get u.obj).val ++ (Tree.varint f v.raw).encode) hadd fun hs =>
            hs.hasRoom hroom)).before ?_
        rintro _ w _ ⟨storage, hstorage, hw⟩
        exact pure ⟨rfl, ⟨storage.items, storage.size_le⟩, hstorage, hw⟩
    · rw [v.accepted_of_valid hvalid, v.diverted_of_valid hvalid, List.append_nil]
      exact pure ⟨rfl, _, rfl, hsame⟩
  · have hfalse : t.isClosed = false := by simpa using hopen
    have hvalid : ¬t.closedInvalid v.value = true := by
      rw [SpelledScalar.closedInvalid_of_not_isClosed hfalse]
      exact Bool.false_ne_true
    rw [v.accepted_of_valid hvalid, v.diverted_of_valid hvalid, List.append_nil]
    refine (onReader (hread hfalse)).andThen fun a u _ ⟨ha, hu⟩ => ?_
    rw [ha]
    exact pure ⟨rfl, _, rfl, by rw [hu]; exact hsame⟩

end Takes

namespace Items

variable {α : Type} {storage : Storage}

theorem grow_exits (storage : Storage) (reserved : Bool) (count : ℕ) (ctx : Context) :
    Exits (grow storage reserved count ctx) (fun _ ctx' => ctx.Spent ctx')
      (fun e _ => e.IsLimit ∧ ¬ctx.AlwaysGrants) := by
  cases storage with
  | array max fixed => exact .refl _
  | vector maxSize =>
    cases reserved with
    | true => exact .refl _
    | false => exact takeBlock_exits count ctx

theorem pushBack_exits (reserved : Bool) (value : α) (s : Bound (Items α storage)) :
    Exits (pushBack reserved value s)
      (fun _ t => s.ctx.Spent t.ctx ∧ t.obj.val = s.obj.val ++ [value])
      (fun e _ => e.IsLimit ∧
        ¬(s.ctx.AlwaysGrants ∧ s.obj.val.length + 1 ≤ storage.capacity)) := by
  have hgrow := grow_exits storage reserved 1 s.ctx
  unfold pushBack
  split
  · cases h : grow storage reserved 1 s.ctx with
    | ok a ctx => exact ⟨hgrow.ok h, rfl⟩
    | error e ctx => exact ⟨(hgrow.error h).1, fun hc => (hgrow.error h).2 hc.1⟩
  · next hfull => exact ⟨by simp [Error.IsLimit], fun hc => hfull hc.2⟩

theorem append_exits (reserved : Bool) (values : List α) (s : Bound (Items α storage)) :
    Exits (append reserved values s)
      (fun _ t => s.ctx.Spent t.ctx ∧ t.obj.val = s.obj.val ++ values)
      (fun e _ => e.IsLimit ∧
        ¬(s.ctx.AlwaysGrants ∧ s.obj.val.length + values.length ≤ storage.capacity)) := by
  have hgrow := grow_exits storage reserved values.length s.ctx
  unfold append
  split
  · next h =>
    rw [List.isEmpty_iff.mp h]
    exact ⟨.refl _, (List.append_nil _).symm⟩
  split
  · next e h =>
    obtain ⟨he, hlt⟩ := checkedAdd_refused h
    refine ⟨he, fun ⟨_, hle⟩ => ?_⟩
    exact absurd (Nat.le_trans hle storage.capacity_le) (Nat.not_le_of_lt hlt)
  split
  · cases h : grow storage reserved values.length s.ctx with
    | ok a ctx => exact ⟨hgrow.ok h, rfl⟩
    | error e ctx => exact ⟨(hgrow.error h).1, fun hc => (hgrow.error h).2 hc.1⟩
  · next hfull => exact ⟨by simp [Error.IsLimit], fun hc => hfull hc.2⟩

theorem reserve_exits (count : ℕ) (s : Bound (Items α storage)) :
    Exits (reserve count s) (fun _ t => s.ctx.Spent t.ctx ∧ t.obj = s.obj)
      (fun e _ => e.IsLimit ∧ ¬(s.ctx.AlwaysGrants ∧ count ≤ storage.capacity)) := by
  have hgrow := grow_exits storage false (count - s.obj.val.length) s.ctx
  unfold reserve
  split
  · next hlong => exact ⟨by simp [Error.IsLimit], fun hc => Nat.not_le_of_lt hlong hc.2⟩
  · cases h : grow storage false (count - s.obj.val.length) s.ctx with
    | ok a ctx => exact ⟨hgrow.ok h, rfl⟩
    | error e ctx => exact ⟨(hgrow.error h).1, fun hc => (hgrow.error h).2 hc.1⟩

theorem resizeForOverwrite_exits (fill : α) (count : ℕ) (s : Bound (Items α storage)) :
    Exits (resizeForOverwrite fill count s) (fun _ t => s.ctx.Spent t.ctx ∧ t.obj.val =
      s.obj.val.take count ++ List.replicate (count - s.obj.val.length) fill)
      (fun e _ => e.IsLimit ∧ ¬(s.ctx.AlwaysGrants ∧ count ≤ storage.capacity)) := by
  have hgrow := grow_exits storage false (count - s.obj.val.length) s.ctx
  unfold resizeForOverwrite
  split
  · next hlong => exact ⟨by simp [Error.IsLimit], fun hc => Nat.not_le_of_lt hlong hc.2⟩
  · cases h : grow storage false (count - s.obj.val.length) s.ctx with
    | ok a ctx => exact ⟨hgrow.ok h, rfl⟩
    | error e ctx => exact ⟨(hgrow.error h).1, fun hc => (hgrow.error h).2 hc.1⟩

end Items

/-- The bytes of a run. -/
def runBytes {t : ScalarType} (run : List (SpelledScalar t)) : List UInt8 :=
  run.flatMap SpelledScalar.bytes

theorem length_runBytes {t : ScalarType} {width : ℕ} (h : t.fixedWidth = some width)
    (run : List (SpelledScalar t)) : (runBytes run).length = run.length * width := by
  induction run with
  | nil => exact (Nat.zero_mul width).symm
  | cons v run ih =>
    change (v.bytes ++ runBytes run).length = _
    rw [List.length_append, ih, (v.length_of_fixedWidth h).1, List.length_cons, Nat.succ_mul,
      Nat.add_comm]

theorem length_le_runBytes {t : ScalarType} (run : List (SpelledScalar t)) :
    run.length ≤ (runBytes run).length := by
  induction run with
  | nil => exact Nat.le_refl _
  | cons v run ih =>
    have hpos := v.bytes_pos
    change _ ≤ (v.bytes ++ runBytes run).length
    rw [List.length_append, List.length_cons]
    omega

/-- What a run of values makes of the temporaries. -/
structure Packed.After {t : ScalarType} {storage : Storage} (preserve : Bool) (f : ℕ)
    (run : List (SpelledScalar t)) (old new : Packed t storage) : Prop where
  values : new.values.val = old.values.val ++ run.filterMap SpelledScalar.accepted
  unknown : new.unknown.val = old.unknown.val ++ run.flatMap (SpelledScalar.diverted preserve f)

theorem Packed.After.nil {t : ScalarType} {storage : Storage} {preserve : Bool} {f : ℕ}
    (old : Packed t storage) : old.After preserve f [] old where
  values := (List.append_nil _).symm
  unknown := (List.append_nil _).symm

theorem Packed.After.cons {t : ScalarType} {storage : Storage} {preserve : Bool} {f : ℕ}
    {v : SpelledScalar t} {run : List (SpelledScalar t)} {old mid new : Packed t storage}
    (hvalues : mid.values.val = old.values.val ++ v.accepted.toList)
    (hunknown : mid.unknown.val = old.unknown.val ++ v.diverted preserve f)
    (h : mid.After preserve f run new) : old.After preserve f (v :: run) new where
  values := by
    rw [h.values, hvalues, List.append_assoc]
    cases haccepted : v.accepted with
    | none =>
      rw [List.filterMap_cons_none haccepted]
      rfl
    | some value =>
      rw [List.filterMap_cons_some haccepted]
      rfl
  unknown := by rw [h.unknown, hunknown, List.flatMap_cons, List.append_assoc]

/-- A run of values of a fixed width accepts them all. -/
theorem accepted_of_not_isClosed {t : ScalarType} (h : t.isClosed = false)
    (run : List (SpelledScalar t)) :
    run.filterMap SpelledScalar.accepted = run.map SpelledScalar.value := by
  rw [← List.filterMap_eq_map]
  refine List.filterMap_congr fun v _ => v.accepted_of_valid ?_
  rw [SpelledScalar.closedInvalid_of_not_isClosed h]
  exact Bool.false_ne_true

theorem diverted_of_not_isClosed {t : ScalarType} (h : t.isClosed = false)
    (run : List (SpelledScalar t)) (preserve : Bool) (f : ℕ) :
    run.flatMap (SpelledScalar.diverted preserve f) = [] := by
  refine List.flatMap_eq_nil_iff.mpr fun v _ => v.diverted_of_valid ?_ preserve f
  rw [SpelledScalar.closedInvalid_of_not_isClosed h]
  exact Bool.false_ne_true

private theorem isClosed_of_fixedWidth {t : ScalarType} (h : t.fixedWidth.isNone = false) :
    t.isClosed = false := by
  cases t with
  | closedEnum values => cases h
  | _ => rfl

section
variable {B : Bounds} {t : ScalarType} {storage : Storage} {preserve : Bool} {f c : ℕ}

private theorem not_eof_of_run {s : Parse (Packed t storage)} {v : SpelledScalar t}
    {run : List (SpelledScalar t)} (hrest : s.reader.rest = runBytes (v :: run))
    (hsteady : s.reader.Steady) : ¬s.reader.eof = true := by
  have hpos := v.bytes_pos
  rw [hsteady.eof_iff, hrest]
  intro hnil
  have hv := (List.append_eq_nil_iff.mp hnil).1
  rw [hv] at hpos
  exact absurd hpos (Nat.lt_irrefl 0)

/-- One is counted for a value that is not of a fixed width. -/
private theorem run_counts {v : SpelledScalar t} {run : List (SpelledScalar t)}
    (hc : t.fixedWidth.isNone = true → (runBytes (v :: run)).length ≤ c) :
    ∃ j k, j + k ≤ c ∧ (t.fixedWidth.isNone = true → 1 ≤ j) ∧
      (t.fixedWidth.isNone = true → (runBytes run).length ≤ k) := by
  have hpos := v.bytes_pos
  have hlength : (runBytes (v :: run)).length = v.bytes.length + (runBytes run).length :=
    List.length_append
  cases hnone : t.fixedWidth.isNone with
  | false =>
    have hnot {p : Prop} (h : false = true) : p := absurd h Bool.false_ne_true
    exact ⟨0, 0, Nat.zero_le _, hnot, hnot⟩
  | true =>
    have hc := hc hnone
    exact ⟨1, (runBytes run).length, by omega, fun _ => Nat.le_refl _, fun _ => Nat.le_refl _⟩

private theorem readPackedLoop_takes (hf : 0 < f ∧ f ≤ maxNumber) (run : List (SpelledScalar t))
    (n : ℕ) {s : Parse (Packed t storage)} (hrest : s.reader.rest = runBytes run)
    (hn : s.reader.rest.length < n) (hsteady : s.reader.Steady)
    (hvalues : B.Within (s.obj.values.val.length +
      (run.filterMap SpelledScalar.accepted).length) storage.capacity)
    (hstored : B.Stores (s.obj.unknown.val.length +
      (run.flatMap (SpelledScalar.diverted preserve f)).length))
    (hc : t.fixedWidth.isNone = true → (runBytes run).length ≤ c) :
    Takes B (readPackedLoop preserve t f n) s (runBytes run)
      (fun _ o => s.obj.After preserve f run o) c := by
  induction run generalizing n s c with
  | nil =>
    obtain ⟨m, rfl⟩ : ∃ m, n = m + 1 := ⟨n - 1, by omega⟩
    intro _
    have heof := hsteady.eof_iff.mpr hrest
    change Exits (if s.reader.eof then .ok () s else _) _ _
    rw [if_pos heof]
    exact ⟨.refl _, .nil _⟩
  | cons v run ih =>
    obtain ⟨m, rfl⟩ : ∃ m, n = m + 1 := ⟨n - 1, by omega⟩
    have hpos := v.bytes_pos
    obtain ⟨j, k, hjk, hj, hk⟩ := run_counts hc
    rw [List.flatMap_cons, List.length_append, ← Nat.add_assoc] at hstored
    intro hs
    change Exits (if s.reader.eof then .ok () s else _) _ _
    rw [if_neg (not_eof_of_run hrest hsteady)]
    refine Takes.optionally (Q := fun o => o = s.obj) (fun hnone => Takes.consume _ _ (hj hnone))
      (fun _ => rfl) hjk (fun u hu ho => ?_) hs
    have hvalue : B.Stores ((Packed.unknownLens.get u.obj).val.length +
        (v.diverted preserve f).length) := by
      rw [ho]
      exact hstored.mono (Nat.le_add_right _ _)
    refine (Takes.readAcceptedScalar preserve Packed.unknownLens hf v
      (fun _ => v.encodes.reads) hvalue).uncounted fun a w hw ⟨ha, merged, hmerged, hwo⟩ => ?_
    have hmoved := hu.trans hw
    rw [Nat.zero_add] at hmoved
    have hwrest : w.reader.rest = runBytes run := by
      rw [hmoved.rest, hrest]
      exact List.drop_left
    have hroom : w.reader.rest.length < m := by
      have hle := hmoved.le
      rw [hmoved.rest, List.length_drop]
      omega
    rw [ha]
    rw [ho] at hmerged hwo
    have hsame : w.obj.values = s.obj.values := by rw [hwo]; rfl
    have hunknown : w.obj.unknown.val = s.obj.unknown.val ++ v.diverted preserve f := by
      rw [hwo]
      exact hmerged
    rw [← List.length_append, ← hunknown] at hstored
    cases haccepted : v.accepted with
    | none =>
      rw [List.filterMap_cons_none haccepted, ← hsame] at hvalues
      refine (ih m hwrest hroom (hsteady.moved hmoved) hvalues hstored hk).mono fun _ o h => ?_
      refine h.cons ?_ hunknown
      rw [haccepted, hsame, Option.toList_none, List.append_nil]
    | some value =>
      rw [List.filterMap_cons_some haccepted, List.length_cons] at hvalues
      have hfree : B.Within (w.obj.values.val.length + 1) storage.capacity := by
        rw [hsame]
        exact hvalues.mono (by omega)
      refine Takes.before (Takes.zoom Packed.valuesLens (Takes.onBound
        (Q := fun _ items => items.val = w.obj.values.val ++ [value])
        (Items.pushBack_exits _ value _) fun hs => ⟨hs.grants, hfree hs.room⟩)) ?_
      rintro _ x hx ⟨items, hitems, hxo⟩
      have hxrest : x.reader.rest = runBytes run := by
        rw [hx.rest, List.drop_zero, hwrest]
      have hxvalues : x.obj.values.val = s.obj.values.val ++ [value] := by
        rw [hxo, ← hsame]
        exact hitems
      have hxunknown : x.obj.unknown = w.obj.unknown := by rw [hxo]; rfl
      have hlength : x.obj.values.val.length = s.obj.values.val.length + 1 := by
        rw [hxvalues, List.length_append, List.length_singleton]
      refine (ih m hxrest ?_ ((hsteady.moved hmoved).moved hx) ?_ ?_ hk).mono fun _ o h => ?_
      · rw [hxrest, ← hwrest]
        exact hroom
      · rw [hlength]
        exact hvalues.mono (by omega)
      · rw [hxunknown]
        exact hstored
      · refine h.cons ?_ ?_
        · rw [haccepted, hxvalues, Option.toList_some]
        · rw [hxunknown, hunknown]

private theorem chargePackedRun_takes {O : Type} {s : Parse O} (run : List (SpelledScalar t))
    (hc : t.fixedWidth.isNone = false → run.length ≤ c) :
    Takes B (chargePackedRun t (runBytes run).length f) s [] (fun _ o => o = s.obj) c := by
  unfold chargePackedRun
  split
  · next width hwidth =>
    have hlen := length_runBytes hwidth run
    rw [hlen, Nat.mul_mod_left]
    refine Takes.ite (fun h => absurd rfl h) fun _ => Takes.consume _ _ ?_
    refine Nat.le_trans (Nat.div_le_of_le_mul ?_) (hc (by rw [hwidth]; rfl))
    rw [Nat.mul_comm]
  · exact .pure rfl

private theorem reservePackedRun_takes {s : Parse (Packed t storage)}
    (run : List (SpelledScalar t))
    (hroom : t.fixedWidth.isNone = false → B.Within run.length storage.capacity) :
    Takes B (reservePackedRun t (runBytes run).length : ParseM (Packed t storage) Unit) s []
      (fun _ o => o = s.obj) c := by
  unfold reservePackedRun
  cases storage with
  | array max fixed => exact .pure rfl
  | vector maxSize =>
    cases hwidth : t.fixedWidth with
    | none => exact .pure rfl
    | some width =>
      refine (Takes.zoom Packed.valuesLens (Takes.onBound (Q := fun _ items => items = s.obj.values)
        (Items.reserve_exits _ _) fun hs => ⟨hs.grants, ?_⟩)).mono ?_
      · have hle := hroom (by rw [hwidth]; rfl) hs.room
        refine Nat.le_trans (Nat.div_le_of_le_mul ?_) hle
        rw [length_runBytes hwidth run, Nat.mul_comm]
      · rintro _ o ⟨items, rfl, rfl⟩
        rfl

variable {packed : Bool}

private theorem checkedAdd_takes {O : Type} {s : Parse O} {m n maximum : ℕ}
    (hmax : maximum ≤ usizeMax) (hm : m ≤ usizeMax) (hn : n ≤ usizeMax)
    (hroom : B.Within (m + n) maximum) :
    Takes B (ofExcept (checkedAdd m n)) s [] (fun total o => total = m + n ∧ o = s.obj) c := by
  refine Takes.ofExcept (fun total h => ⟨?_, rfl⟩) fun e h => .inr ?_
  · exact ((checkedAdd_eq_ok hm hn).mp h).2
  · obtain ⟨he, hlt⟩ := checkedAdd_refused h
    refine ⟨he, fun hs => ?_⟩
    exact absurd (Nat.le_trans (hroom hs.room) hmax) (Nat.not_le_of_lt hlt)

private theorem Items.length_le_usizeMax {α : Type} (items : Items α storage) :
    items.val.length ≤ usizeMax := Nat.le_trans items.2 storage.capacity_le

private theorem commitValues_takes {s : Parse (Items t.Value storage)} (reserved : Bool)
    (values : List t.Value) (f : ℕ) (hlen : values.length ≤ usizeMax)
    (hroom : B.Within (s.obj.val.length + values.length) storage.capacity) :
    Takes B (commitValues reserved values f) s []
      (fun _ items => items.val = s.obj.val ++ values) c := by
  have happend : Takes B (onBound (Items.append reserved values)) s []
      (fun _ (items : Items t.Value storage) => items.val = s.obj.val ++ values) c :=
    .onBound (Items.append_exits reserved values _) fun hs => ⟨hs.grants, hroom hs.room⟩
  cases storage with
  | vector maxSize => exact happend
  | array max fixed =>
    refine Takes.get_bind ((checkedAdd_takes max.2 s.obj.length_le_usizeMax hlen hroom).before
      fun size u _ ⟨hsize, hu⟩ => ?_)
    refine Takes.ite (fun hlong => Takes.failField f (by decide) fun hs => ?_) fun _ => ?_
    · rw [hsize] at hlong
      exact absurd (hroom hs.room) (Nat.not_le_of_lt hlong)
    rw [← hu] at hroom ⊢
    exact .onBound (Items.append_exits reserved values _) fun hs => ⟨hs.grants, hroom hs.room⟩

private theorem prepareCommit_takes {s : Parse (Items t.Value storage)} (count f : ℕ)
    (hlen : count ≤ usizeMax)
    (hroom : B.Within (s.obj.val.length + count) storage.capacity) :
    Takes B (prepareCommit count f : ParseM (Items t.Value storage) Unit) s []
      (fun _ items => items = s.obj) c := by
  refine Takes.get_bind ((checkedAdd_takes storage.capacity_le s.obj.length_le_usizeMax hlen
    hroom).before fun size u _ ⟨hsize, hu⟩ => ?_)
  rw [← hsize] at hroom
  cases storage with
  | vector maxSize =>
    rw [← hu]
    exact .onBound (Items.reserve_exits _ _) fun hs => ⟨hs.grants, hroom hs.room⟩
  | array max fixed =>
    refine Takes.ite (fun hlong => Takes.failField f (by decide) fun hs => ?_) fun _ => .pure hu
    exact absurd (hroom hs.room) (Nat.not_le_of_lt hlong)

/-- What a run of values makes of the field and of the storage of the unknown fields. -/
structure Slot.After (preserve : Bool) (f : ℕ) (run : List (SpelledScalar t))
    (old new : PackedSlot Sub t packed storage) : Prop where
  values : new.value.val = old.value.val ++ run.filterMap SpelledScalar.accepted
  unknown : new.unknown.val = old.unknown.val ++ run.flatMap (SpelledScalar.diverted preserve f)

/-- There is room for a run of values, and for those of them that are stored. -/
structure Slot.Admits (B : Bounds) (preserve : Bool) (f : ℕ) (run : List (SpelledScalar t))
    (slot : PackedSlot Sub t packed storage) : Prop where
  values : B.Within (slot.value.val.length + (run.filterMap SpelledScalar.accepted).length)
    storage.capacity
  unknown : B.Stores (slot.unknown.val.length +
    (run.flatMap (SpelledScalar.diverted preserve f)).length)

variable {s : Parse (PackedSlot Sub t packed storage)}

private theorem zoom_commitValues_takes (reserved : Bool) (values : List t.Value) (f : ℕ)
    (hlen : values.length ≤ usizeMax)
    (hroom : B.Within (s.obj.value.val.length + values.length) storage.capacity) :
    Takes B (zoom Slot.valueLens (commitValues (α := t.Value) reserved values f) :
      ParseM (PackedSlot Sub t packed storage) Unit) s [] (fun _ slot =>
        slot.value.val = s.obj.value.val ++ values ∧ slot.unknown = s.obj.unknown) c := by
  refine (Takes.zoom _ (commitValues_takes reserved values f hlen hroom)).mono ?_
  rintro _ slot ⟨items, hitems, rfl⟩
  exact ⟨hitems, rfl⟩

private theorem commitPackedEnum_takes {run : List (SpelledScalar t)} {p : Packed t storage}
    (hvalues : p.values.val = run.filterMap SpelledScalar.accepted)
    (hunknown : p.unknown.val = run.flatMap (SpelledScalar.diverted preserve f))
    (hroom : Slot.Admits B preserve f run s.obj) :
    Takes B (commitPackedEnum preserve p f) s [] (fun _ slot =>
      Slot.After preserve f run s.obj slot) c := by
  have hstored : B.Stores (s.obj.unknown.val.length + p.unknown.val.length) := by
    rw [hunknown]
    exact hroom.unknown
  have hroom : B.Within (s.obj.value.val.length + p.values.val.length) storage.capacity := by
    rw [hvalues]
    exact hroom.values
  have hprepare : Takes B (zoom Slot.valueLens (prepareCommit (α := t.Value) p.values.val.length f) :
      ParseM (PackedSlot Sub t packed storage) Unit) s [] fun _ slot => slot = s.obj := by
    refine (Takes.zoom _ (prepareCommit_takes _ f p.values.length_le_usizeMax hroom)).mono ?_
    rintro _ slot ⟨items, rfl, rfl⟩
    rfl
  refine hprepare.before fun _ u _ hu => ?_
  rw [← hu] at hroom hstored
  refine Takes.ite (fun _ => ?_) fun hc => ?_
  · refine Takes.get_bind ((Takes.onContext (Q := fun merged slot => merged.val =
      s.obj.unknown.val ++ p.unknown.val ∧ slot = s.obj) ((mergedStorage_exits _ _ _).mono ?_
        fun _ _ h => h) fun hs => ⟨hs.grants, ?_⟩).before fun merged v _ ⟨hm, hv⟩ => ?_)
    · intro merged ctx ⟨hspent, hmerged⟩
      rw [← hu]
      exact ⟨hspent, hmerged, rfl⟩
    · rw [hs.limits]
      exact hstored hs.room
    rw [hu, ← hv] at hroom
    have hlength := p.values.length_le_usizeMax
    refine (zoom_commitValues_takes true _ f hlength hroom).before fun _ w _ ⟨hvalue, _⟩ => ?_
    refine Takes.modifying _ rfl rfl ⟨?_, ?_⟩
    · change w.obj.value.val = _
      rw [hvalue, hv, hvalues]
    · change merged.val = _
      rw [hm, hunknown]
  · have hlength := p.values.length_le_usizeMax
    refine (zoom_commitValues_takes true _ f hlength hroom).mono
      fun _ slot ⟨hvalue, hstorage⟩ => ⟨?_, ?_⟩
    · rw [hvalue, hu, hvalues]
    · have hnil : run.flatMap (SpelledScalar.diverted preserve f) = [] := by
        cases preserve with
        | false => exact List.flatMap_eq_nil_iff.mpr fun v _ => v.diverted_false f
        | true =>
          rw [← hunknown]
          exact not_not.mp fun h => hc ⟨rfl, h⟩
      rw [hstorage, hu, hnil, List.append_nil]

private theorem readPackedRun_takes (hf : 0 < f ∧ f ≤ maxNumber) (run : List (SpelledScalar t))
    (hroom : Slot.Admits B preserve f run s.obj)
    (hc : t.fixedWidth.isNone = true → (runBytes run).length ≤ c) :
    Takes B (inTemporary (⟨Items.empty, Bytes.empty⟩ : Packed t storage) (do
        reservePackedRun t (runBytes run).length
        through (Reader.limited · (runBytes run).length) (readPackedValues preserve t f)) :
          ParseM (PackedSlot Sub t packed storage) (Unit × Packed t storage)) s (runBytes run)
      (fun p slot => Packed.After preserve f run ⟨.empty, .empty⟩ p.2 ∧ slot = s.obj) c := by
  have hvalues : B.Within (run.filterMap SpelledScalar.accepted).length storage.capacity :=
    hroom.values.mono (Nat.le_add_left _ _)
  have hstored : B.Stores (run.flatMap (SpelledScalar.diverted preserve f)).length :=
    hroom.unknown.mono (Nat.le_add_left _ _)
  refine Takes.inTemporary (Q := fun _ p => Packed.After preserve f run ⟨.empty, .empty⟩ p) _
    ((reservePackedRun_takes run fun hwidth => ?_).before fun _ v _ hv => ?_)
  · rw [accepted_of_not_isClosed (isClosed_of_fixedWidth hwidth), List.length_map] at hvalues
    exact hvalues
  refine Takes.limited fun w hw hrest hsteady => ?_
  have hobj : w.obj = ⟨Items.empty, Bytes.empty⟩ := hw.trans hv
  have h : Takes B (readPackedLoop preserve t f (w.reader.rest.length + 1)) w (runBytes run)
      (fun _ o => w.obj.After preserve f run o) c := by
    refine readPackedLoop_takes hf run _ hrest (Nat.lt_succ_self _) hsteady ?_ ?_ hc
    · rw [hobj]
      exact hvalues.mono (Nat.le_of_eq (Nat.zero_add _))
    · rw [hobj]
      exact hstored.mono (Nat.le_of_eq (Nat.zero_add _))
  rw [hobj] at h
  exact h

private theorem readStagedPackedField_takes (hf : 0 < f ∧ f ≤ maxNumber)
    (run : List (SpelledScalar t)) (hroom : Slot.Admits B preserve f run s.obj) :
    Takes B (readStagedPackedField preserve (runBytes run).length f) s (runBytes run) fun _ slot =>
      Slot.After preserve f run s.obj slot := by
  -- the values of a fixed width are counted at once, the others one by one
  obtain ⟨j, k, hjk, hj, hk⟩ : ∃ j k, j + k ≤ (runBytes run).length ∧
      (t.fixedWidth.isNone = false → run.length ≤ j) ∧
      (t.fixedWidth.isNone = true → (runBytes run).length ≤ k) := by
    cases hnone : t.fixedWidth.isNone with
    | true =>
      refine ⟨0, _, Nat.le_of_eq (Nat.zero_add _), fun h => ?_, fun _ => Nat.le_refl _⟩
      exact absurd h.symm Bool.false_ne_true
    | false =>
      refine ⟨_, 0, length_le_runBytes run, fun _ => Nat.le_refl _, fun h => ?_⟩
      exact absurd h Bool.false_ne_true
  refine Takes.canRead ((chargePackedRun_takes run hj).charge hjk fun _ u _ hu => ?_)
  rw [← hu] at hroom
  refine (readPackedRun_takes hf run hroom hk).andThen ?_
  rintro ⟨_, p⟩ v _ ⟨hp, hv⟩
  have hvalues : p.values.val = run.filterMap SpelledScalar.accepted := by
    rw [hp.values]
    rfl
  have hunknown : p.unknown.val = run.flatMap (SpelledScalar.diverted preserve f) := by
    rw [hp.unknown]
    rfl
  rw [← hv] at hroom
  have hobj : v.obj = s.obj := hv.trans hu
  refine Takes.ite (fun _ => ?_) fun hopen => ?_
  · rw [← hobj]
    exact commitPackedEnum_takes hvalues hunknown hroom
  · have hopen : t.isClosed = false := by simpa using hopen
    have hcommit := hroom.values
    rw [← hvalues] at hcommit
    have hle := p.values.length_le_usizeMax
    refine (zoom_commitValues_takes false _ f hle hcommit).mono fun _ slot h => ⟨?_, ?_⟩
    · rw [h.1, hobj, hvalues]
    · rw [h.2, hobj, diverted_of_not_isClosed hopen, List.append_nil]

private theorem bulkWidth_spec {width : ℕ} (h : t.bulkWidth = some width) :
    t.fixedWidth = some width ∧ t.isClosed = false ∧ 0 < width := by
  cases t with
  | double | fixed64 | float | fixed32 =>
    cases h
    exact ⟨rfl, rfl, by decide⟩
  | _ => cases h

private theorem fixedWidthValues_runBytes {width : ℕ} (h : t.fixedWidth = some width)
    (run : List (SpelledScalar t)) :
    fixedWidthValues t width run.length (runBytes run) = run.map SpelledScalar.value := by
  induction run with
  | nil => rfl
  | cons v run ih =>
    obtain ⟨hlen, hvalue⟩ := v.length_of_fixedWidth h
    change BitVec.ofNat t.width (ofBytes ((v.bytes ++ runBytes run).take width)) ::
      fixedWidthValues t width run.length ((v.bytes ++ runBytes run).drop width) = _
    rw [← hlen, List.take_left, List.drop_left, hlen, ih, ← hvalue]
    rfl

private theorem readFixedWidthPackedValues_takes {s : Parse (Items t.Value storage)} {width : ℕ}
    (h : t.bulkWidth = some width) (run : List (SpelledScalar t)) (hrun : run.length ≤ usizeMax)
    (hroom : B.Within (s.obj.val.length + run.length) storage.capacity) :
    Takes B (readFixedWidthPackedValues t width (runBytes run).length f) s (runBytes run)
      fun _ items => items.val = s.obj.val ++ run.map SpelledScalar.value := by
  obtain ⟨hwidth, _, hpos⟩ := bulkWidth_spec h
  have hlen := length_runBytes hwidth run
  have hcount : (runBytes run).length / width = run.length := by
    rw [hlen, Nat.mul_div_cancel _ hpos]
  refine Takes.ite (fun hzero => ?_) fun _ => ?_
  · have hnil : run = [] := by
      have hmul : run.length * width = 0 := hlen.symm.trans hzero
      exact List.length_eq_zero_iff.mp ((Nat.mul_eq_zero.mp hmul).resolve_right (by omega))
    rw [hnil]
    exact .pure (List.append_nil _).symm
  refine Takes.ite (fun hmod => absurd ?_ hmod) fun _ => ?_
  · rw [hlen, Nat.mul_mod_left]
  rw [hcount]
  refine Takes.canReadField f (((Takes.consume _ _ (Nat.le_refl _)).withField f).charge
    (d := 0) (length_le_runBytes run) fun _ u _ hu => ?_)
  rw [← hu] at hroom
  refine Takes.get_bind (((checkedAdd_takes storage.capacity_le u.obj.length_le_usizeMax hrun
    hroom).withField f).before fun total v _ ⟨htotal, hv⟩ => ?_)
  rw [← htotal] at hroom
  refine ((Takes.onBound (Q := fun _ items => items.val = v.obj.val.take total ++
    List.replicate (total - v.obj.val.length) 0)
    (Items.resizeForOverwrite_exits (0 : t.Value) total _)
    fun hs => ⟨hs.grants, hroom hs.room⟩).withField f).before fun _ w _ hw => ?_
  intro hs
  have hread : withField f (onReader (Reader.read (runBytes run).length)) w =
      .ok (runBytes run) { w with reader := w.reader.advance (runBytes run).length } :=
    withField_eq_ok.mpr (onReader_eq_ok.mpr ⟨_, Reads.read rfl _ hs, rfl⟩)
  dsimp only
  rw [hread]
  refine ⟨.intro (.advance hs.length_le) rfl id fun budget n ha => ?_, ?_⟩
  · exact (Reader.allows_advance _ _).mpr (ha.mono (Nat.le_add_left n 0))
  have hobj : v.obj = s.obj := hv.trans hu
  rw [hobj, htotal, hu, List.take_of_length_le (Nat.le_add_right _ _), Nat.add_sub_cancel_left]
    at hw
  change (w.obj.val.take u.obj.val.length ++
    fixedWidthValues t width run.length (runBytes run)).take
      w.obj.val.length = _
  rw [hu, hw, List.take_left, fixedWidthValues_runBytes hwidth, List.length_append,
    List.length_replicate]
  exact List.take_of_length_le (by rw [List.length_append, List.length_map])

theorem readPackedField_takes (preserve : Bool) (hf : 0 < f ∧ f ≤ maxNumber)
    (run : List (SpelledScalar t)) {bs : List UInt8} (hd : Delimited bs (runBytes run))
    {s : Parse (PackedSlot Sub t packed storage)} (hroom : Slot.Admits B preserve f run s.obj) :
    Takes B (readPackedField preserve f) s bs fun _ slot =>
      Slot.After preserve f run s.obj slot := by
  obtain ⟨ls, hls, rfl⟩ := hd
  have hle : (runBytes run).length ≤ (ls ++ runBytes run).length := by
    rw [List.length_append]
    exact Nat.le_add_left _ _
  refine Takes.reading (Reads.size hls) fun u _ hu => ?_
  rw [← hu] at hroom ⊢
  cases storage with
  | array max fixed => exact (readStagedPackedField_takes hf run hroom).le hle
  | vector maxSize =>
    cases hwidth : t.bulkWidth with
    | none => exact (readStagedPackedField_takes hf run hroom).le hle
    | some width =>
      have hopen := (bulkWidth_spec hwidth).2.1
      have haccepted := accepted_of_not_isClosed hopen run
      have hvalues := hroom.values
      rw [haccepted, List.length_map] at hvalues
      have hrun := Nat.le_trans (length_le_runBytes run) (le_usizeMax_of_varint hls)
      refine ((Takes.zoom _ (readFixedWidthPackedValues_takes hwidth run hrun hvalues)).le
        hle).mono ?_
      rintro _ slot ⟨items, hitems, rfl⟩
      refine ⟨by rw [haccepted]; exact hitems, ?_⟩
      rw [diverted_of_not_isClosed hopen, List.append_nil]
      rfl

end

end Protocyte
