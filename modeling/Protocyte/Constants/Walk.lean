import Protocyte.Constants.Dependencies
import Protocyte.Foundation.Computation

/-! What the memoised walk leaves behind: every constant marked done has the value of its
definition, and a depth above those of the constants it refers to. -/
namespace Protocyte.Constants

open Foundation Foundation.Computation

variable {F : Type} (py : Python F) (s : Schema F)

namespace Resolution

/-- The values of the constants marked done. -/
def values (r : Resolution F) : ConstantId → Result (TypedValue F) := fun id =>
  match r.status id with
  | some (.done value _) => .ok value
  | _ => .error ⟨"unresolved"⟩

def IsDone (r : Resolution F) (id : ConstantId) : Prop := ∃ v d, r.status id = some (.done v d)

theorem values_eq_ok {r : Resolution F} {id : ConstantId} {v : TypedValue F} :
    r.values id = .ok v ↔ ∃ d, r.status id = some (.done v d) := by
  unfold values
  cases h : r.status id with
  | none => simp
  | some status =>
    cases status with
    | visiting => simp
    | done value depth => simp

end Resolution

/-- The deepest dependency seen by the innermost constant in progress only grows. -/
def DepthsGrow : List ℕ → List ℕ → Prop
  | [], [] => True
  | a :: outer, b :: outer' => a ≤ b ∧ outer = outer'
  | _, _ => False

theorem depthsGrow_refl (l : List ℕ) : DepthsGrow l l := by
  cases l with
  | nil => trivial
  | cons a outer => exact ⟨Nat.le_refl a, rfl⟩

theorem DepthsGrow.trans : ∀ {k l m : List ℕ}, DepthsGrow k l → DepthsGrow l m → DepthsGrow k m
  | [], [], [], _, _ => trivial
  | _ :: _, _ :: _, _ :: _, h, h' => ⟨Nat.le_trans h.1 h'.1, h.2.trans h'.2⟩

/-- A later state of the walk at the same constant. -/
structure Extends (r r' : Resolution F) : Prop where
  done : ∀ id v d, r.status id = some (.done v d) → r'.status id = some (.done v d)
  visiting : ∀ id, r'.status id = some .visiting ↔ r.status id = some .visiting
  depths : DepthsGrow r.childDepths r'.childDepths

theorem extends_refl (r : Resolution F) : Extends r r where
  done _ _ _ h := h
  visiting _ := Iff.rfl
  depths := depthsGrow_refl _

theorem Extends.trans {r r' r'' : Resolution F} (h : Extends r r') (h' : Extends r' r'') :
    Extends r r'' where
  done id v d hd := h'.done id v d (h.done id v d hd)
  visiting id := (h'.visiting id).trans (h.visiting id)
  depths := h.depths.trans h'.depths

theorem Extends.values {r r' : Resolution F} (h : Extends r r') (id : ConstantId)
    (v : TypedValue F) (hv : r.values id = .ok v) : r'.values id = .ok v := by
  obtain ⟨d, hd⟩ := Resolution.values_eq_ok.mp hv
  exact Resolution.values_eq_ok.mpr ⟨d, h.done id v d hd⟩

/-- A constant's mark agrees with its definition and lies above its references. -/
structure Justified (r : Resolution F) (t : Target F) (v : TypedValue F) (d : ℕ) : Prop where
  value : t.evaluate py s r.values = .ok v
  positive : 0 < d
  short : d ≤ maxConstantDependencyDepth
  above : ∀ u, References py s t u → ∃ v' d', r.status u.id = some (.done v' d') ∧ d' < d

def Sound (r : Resolution F) : Prop :=
  ∀ t, s.Canonical t → ∀ v d, r.status t.id = some (.done v d) → Justified py s r t v d

variable {py s}

theorem Justified.mono {r r' : Resolution F} {t : Target F} {v : TypedValue F} {d : ℕ}
    (h : Justified py s r t v d)
    (hdone : ∀ id v d, r.status id = some (.done v d) → r'.status id = some (.done v d)) :
    Justified py s r' t v d where
  value := by
    apply Target.evaluate_mono _ h.value
    intro id w hw
    obtain ⟨d', hd'⟩ := Resolution.values_eq_ok.mp hw
    exact Resolution.values_eq_ok.mpr ⟨d', hdone id w d' hd'⟩
  positive := h.positive
  short := h.short
  above u hu := by
    obtain ⟨v', d', hstatus, hlt⟩ := h.above u hu
    exact ⟨v', d', hdone u.id v' d' hstatus, hlt⟩

section Marks

theorem status_mark_self (r : Resolution F) (id : ConstantId) (status : Status F) :
    (r.mark id status).status id = some status := by
  simp [Resolution.mark]

theorem status_mark_of_ne (r : Resolution F) {id other : ConstantId} (h : other ≠ id)
    (status : Status F) : (r.mark id status).status other = r.status other := by
  simp [Resolution.mark, h]

theorem sound_enter {r : Resolution F} (h : Sound py s r) {id : ConstantId}
    (hid : r.status id = none) : Sound py s (r.enter id) := by
  intro t ht v d hstatus
  have hne : t.id ≠ id := by
    intro heq
    rw [heq] at hstatus
    have hmark : (r.enter id).status id = some .visiting := status_mark_self r id .visiting
    rw [hmark] at hstatus
    cases hstatus
  have hold : r.status t.id = some (.done v d) := by
    rw [← hstatus]
    exact (status_mark_of_ne r hne .visiting).symm
  apply (h t ht v d hold).mono
  intro other w e hother
  have hother' : other ≠ id := by
    rintro rfl
    rw [hid] at hother
    cases hother
  exact (status_mark_of_ne r hother' .visiting).trans hother

/-- The walk below a constant in progress leaves it in progress. -/
theorem Extends.visiting_enter {r r' : Resolution F} {id : ConstantId}
    (h : Extends (r.enter id) r') : r'.status id = some .visiting :=
  (h.visiting id).mpr (status_mark_self r id .visiting)

theorem extends_leave {r r' : Resolution F} {id : ConstantId} (hid : r.status id = none)
    (h : Extends (r.enter id) r') (v : TypedValue F) (d : ℕ) :
    Extends r (r'.leave id v d) ∧ (r'.leave id v d).childDepths = r.childDepths := by
  have hdepths : (r'.leave id v d).childDepths = r.childDepths := by
    have hgrow := h.depths
    change DepthsGrow (0 :: r.childDepths) r'.childDepths at hgrow
    change r'.childDepths.tail = r.childDepths
    cases hchild : r'.childDepths with
    | nil =>
      rw [hchild] at hgrow
      cases hgrow
    | cons a outer =>
      rw [hchild] at hgrow
      exact hgrow.2.symm
  refine ⟨?_, hdepths⟩
  constructor
  · intro other w e hother
    have hne : other ≠ id := by
      rintro rfl
      rw [hid] at hother
      cases hother
    have henter : (r.enter id).status other = some (.done w e) :=
      (status_mark_of_ne r hne .visiting).trans hother
    exact (status_mark_of_ne r' hne _).trans (h.done other w e henter)
  · intro other
    by_cases hne : other = id
    · subst hne
      have hleave : (r'.leave other v d).status other = some (.done v d) :=
        status_mark_self r' other _
      rw [hleave, hid]
      simp
    · have hleave : (r'.leave id v d).status other = r'.status other :=
        status_mark_of_ne r' hne _
      have henter : (r.enter id).status other = r.status other :=
        status_mark_of_ne r hne .visiting
      rw [hleave, h.visiting other, henter]
  · rw [hdepths]
    exact depthsGrow_refl _

end Marks

section Soundness

variable {exhausted : Interpreter F}

/-- What a successful lookup of a name leaves behind. -/
def Recorded (py : Python F) (s : Schema F) (scope : Scope) (name : String) (r : Resolution F) :
    Prop :=
  ∃ u v d, s.find py scope name = .ok u ∧ r.status u.id = some (.done v d) ∧
    ∀ deepest outer, r.childDepths = deepest :: outer → d ≤ deepest

theorem Recorded.mono {scope : Scope} {name : String} {r r' : Resolution F}
    (h : Recorded py s scope name r) (hext : Extends r r') : Recorded py s scope name r' := by
  obtain ⟨u, v, d, hfind, hstatus, hdepth⟩ := h
  refine ⟨u, v, d, hfind, hext.done _ _ _ hstatus, ?_⟩
  intro deepest outer hchild
  have hgrow := hext.depths
  rw [hchild] at hgrow
  cases hold : r.childDepths with
  | nil =>
    rw [hold] at hgrow
    cases hgrow
  | cons a rest =>
    rw [hold] at hgrow
    exact Nat.le_trans (hdepth a rest hold) hgrow.1

/-- What a walk below a constant guarantees of its lookups. -/
def LookupSound (py : Python F) (s : Schema F) (lookup : Lookup F) : Prop :=
  ∀ outer scope name r v r', Sound py s r → lookup outer scope name r = .ok (v, r') →
    Sound py s r' ∧ Extends r r' ∧ Recorded py s scope name r' ∧
      ∀ r'', Extends r' r'' → environment py s r''.values scope name = .ok v

def BelowSound (py : Python F) (s : Schema F) : Option (Lookup F) → Prop
  | none => True
  | some lookup => LookupSound py s lookup

/-- A moment the interpreter has room for changes nothing. -/
theorem proceed_eq_ok {outer : Stack F} {activation : Activation F} {r r' : Resolution F} :
    proceed exhausted outer activation r = .ok ((), r') ↔
      exhausted (activation :: outer) r = false ∧ r' = r := by
  unfold proceed
  cases h : exhausted (activation :: outer) r with
  | true => simp [reject]
  | false => simp [Prod.ext_iff, eq_comm]

theorem resolveName_eq_ok {outer : Stack F} {label text : String}
    {lookup : Stack F → String → ResolverM F (TypedValue F)} {answers : List (TypedValue F)}
    {name : String} {r r' : Resolution F} {v : TypedValue F}
    (h : resolveName exhausted outer label text lookup answers name r = .ok (v, r')) :
    lookup (⟨label, text, answers, .asking name⟩ :: outer) name r = .ok (v, r') := by
  obtain ⟨_, r₁, hasking, hrest⟩ := stateT_bind_eq_ok.mp h
  obtain ⟨w, r₂, hlookup, hrest⟩ := stateT_bind_eq_ok.mp hrest
  obtain ⟨_, r₃, hanswered, hpure⟩ := stateT_bind_eq_ok.mp hrest
  have hpair := Prod.mk.inj (Except.ok.inj hpure)
  rw [(proceed_eq_ok.mp hasking).2] at hlookup
  rw [← hpair.1, ← hpair.2, (proceed_eq_ok.mp hanswered).2]
  exact hlookup

/-- An expression evaluated by the walk has its value in the environment the walk leaves behind. -/
theorem parse_sound {lookup : Lookup F} (hlookup : LookupSound py s lookup) {outer : Stack F}
    {label text : String} {scope : Scope} {r r' : Resolution F} {v : TypedValue F}
    (hr : Sound py s r)
    (h : parse py exhausted outer label text (fun stack => lookup stack scope) r = .ok (v, r')) :
    Sound py s r' ∧ Extends r r' ∧
      (parseExpression py label text).eval (environment py s r'.values scope) = .ok v ∧
      ∀ name ∈ referencedNames py label text, Recorded py s scope name r' := by
  obtain ⟨hsound, hext, hasked, heval⟩ := Query.eval_of_run Extends
    (fun r => environment py s r.values scope) (Recorded py s scope) (Sound py s)
    extends_refl (fun _ _ _ h h' => h.trans h') (fun _ _ _ h h' => h.mono h')
    (fun _ _ _ h => (proceed_eq_ok.mp h).2)
    (fun _ name r v r' hr h => hlookup _ scope name r v r' hr (resolveName_eq_ok h))
    (parseExpression py label text) hr h
  have hparsed := heval r' (extends_refl r')
  refine ⟨hsound, hext, hparsed, ?_⟩
  intro name hname
  rw [← asked_of_eval py _ hparsed] at hname
  exact hasked name hname

/-- A definition evaluated by the walk. -/
theorem constantValue_sound {lookup : Lookup F} (hlookup : LookupSound py s lookup)
    {outer : Stack F} {t : Target F} {r r' : Resolution F} {v : TypedValue F} (hr : Sound py s r)
    (h : constantValue py exhausted outer (fun stack => lookup stack t.scope) t.constant r
      = .ok (v, r')) :
    Sound py s r' ∧ Extends r r' ∧ t.evaluate py s r'.values = .ok v ∧
      ∀ name ∈ t.names py, Recorded py s t.scope name r' := by
  unfold constantValue at h
  unfold Target.evaluate Target.names
  cases hdef : t.constant.definition with
  | literal value =>
    rw [hdef] at h
    simp only at h ⊢
    obtain ⟨hcoerce, rfl⟩ := stateT_lift_eq_ok.mp h
    exact ⟨hr, extends_refl r, hcoerce, fun name hname => absurd hname List.not_mem_nil⟩
  | expr text =>
    rw [hdef] at h
    simp only at h ⊢
    obtain ⟨parsed, r₁, hrun, hlift⟩ := stateT_bind_eq_ok.mp h
    obtain ⟨hcoerce, rfl⟩ := stateT_lift_eq_ok.mp hlift
    obtain ⟨hsound, hext, hparsed, hnames⟩ := parse_sound hlookup hr hrun
    refine ⟨hsound, hext, ?_, hnames⟩
    rw [hparsed]
    exact hcoerce

theorem resolveConstant_sound {below : Option (Lookup F)} (hbelow : BelowSound py s below)
    {outer : Stack F} {t : Target F} (ht : s.Canonical t) {r r' : Resolution F} {v : TypedValue F}
    (hr : Sound py s r) (h : resolveConstant py exhausted below outer t r = .ok (v, r')) :
    Sound py s r' ∧ Extends r r' ∧ r'.childDepths = r.childDepths ∧
      ∃ d, r'.status t.id = some (.done v d) := by
  unfold resolveConstant at h
  cases hstatus : r.status t.id with
  | some status =>
    cases status with
    | visiting =>
      simp only [hstatus] at h
      cases h
    | done w d =>
      simp only [hstatus] at h
      have hpair : (w, r) = (v, r') := Except.ok.inj h
      obtain ⟨rfl, rfl⟩ := Prod.mk.inj hpair
      exact ⟨hr, extends_refl r, rfl, d, hstatus⟩
  | none =>
    cases below with
    | none =>
      simp only [hstatus] at h
      cases h
    | some lookup =>
      simp only [hstatus] at h
      cases hvalue : constantValue py exhausted outer (fun stack => lookup stack t.scope) t.constant
          (r.enter t.id) with
      | error e =>
        rw [hvalue] at h
        cases h
      | ok p =>
        obtain ⟨w, r₁⟩ := p
        rw [hvalue] at h
        obtain ⟨hsound, hext, heval, hnames⟩ :=
          constantValue_sound hbelow (sound_enter hr hstatus) hvalue
        simp only [bind, Except.bind] at h
        split at h
        · cases h
        · rename_i hdepth
          have hpair := Prod.mk.inj (Except.ok.inj h)
          obtain ⟨hw, hr'⟩ := hpair
          subst hw
          subst hr'
          obtain ⟨hfinal, hchild⟩ := extends_leave hstatus hext w (r₁.childDepths.headD 0 + 1)
          have hmark : (r₁.leave t.id w (r₁.childDepths.headD 0 + 1)).status t.id
              = some (.done w (r₁.childDepths.headD 0 + 1)) := status_mark_self r₁ t.id _
          have hkeep : ∀ id v d, r₁.status id = some (.done v d) →
              (r₁.leave t.id w (r₁.childDepths.headD 0 + 1)).status id = some (.done v d) := by
            intro id v d hid
            have hne : id ≠ t.id := by
              rintro rfl
              rw [hext.visiting_enter] at hid
              cases hid
            exact (status_mark_of_ne r₁ hne _).trans hid
          refine ⟨?_, hfinal, hchild, _, hmark⟩
          intro u hu v d hud
          by_cases hne : u.id = t.id
          · have hut := Schema.canonical_unique hu ht hne
            subst hut
            rw [hmark] at hud
            injection hud with hud
            injection hud with hv hd
            subst hv
            subst hd
            have hjust : Justified py s r₁ u w (r₁.childDepths.headD 0 + 1) := by
              constructor
              · exact heval
              · exact Nat.succ_pos _
              · exact Nat.le_of_not_lt hdepth
              · rintro x ⟨name, hname, hfind⟩
                obtain ⟨y, v', d', hfind', hy, hle⟩ := hnames name hname
                have hxy : y = x := by
                  rw [hfind] at hfind'
                  exact (Except.ok.inj hfind').symm
                subst hxy
                refine ⟨v', d', hy, ?_⟩
                have hgrow := hext.depths
                change DepthsGrow (0 :: r.childDepths) r₁.childDepths at hgrow
                cases hdeep : r₁.childDepths with
                | nil =>
                  rw [hdeep] at hgrow
                  cases hgrow
                | cons deepest outer => exact Nat.lt_succ_of_le (hle deepest outer hdeep)
            exact hjust.mono hkeep
          · have hold : r₁.status u.id = some (.done v d) :=
              (status_mark_of_ne r₁ hne _).symm.trans hud
            exact (hsound u hu v d hold).mono hkeep

theorem extends_record (r : Resolution F) (id : ConstantId) : Extends r (r.record id) := by
  unfold Resolution.record
  split
  · rename_i seen outer value depth hchild hstatus
    refine ⟨fun _ _ _ h => h, fun _ => Iff.rfl, ?_⟩
    rw [hchild]
    exact ⟨Nat.le_max_left seen depth, rfl⟩
  · exact extends_refl r

theorem record_status (r : Resolution F) (id : ConstantId) : (r.record id).status = r.status := by
  unfold Resolution.record
  split <;> rfl

theorem sound_of_status {r r' : Resolution F} (h : Sound py s r) (hstatus : r'.status = r.status) :
    Sound py s r' := by
  intro t ht v d htd
  rw [hstatus] at htd
  apply (h t ht v d htd).mono
  intro id w e hid
  rw [hstatus]
  exact hid

/-- The depth of a dependency is below the deepest one recorded. -/
theorem record_deepest {r : Resolution F} {id : ConstantId} {v : TypedValue F} {d : ℕ}
    (h : r.status id = some (.done v d)) {deepest : ℕ} {outer : List ℕ}
    (hchild : (r.record id).childDepths = deepest :: outer) : d ≤ deepest := by
  unfold Resolution.record at hchild
  rw [h] at hchild
  cases hold : r.childDepths with
  | nil =>
    rw [hold] at hchild
    simp only at hchild
    rw [hold] at hchild
    cases hchild
  | cons seen rest =>
    rw [hold] at hchild
    have hmax : max seen d = deepest := (List.cons.inj hchild).1
    rw [← hmax]
    exact Nat.le_max_right seen d

theorem resolveDependency_sound {below : Option (Lookup F)} (hbelow : BelowSound py s below)
    {outer : Stack F} {scope : Scope} {name : String} {t : Target F} (hfind : s.find py scope name = .ok t)
    {r r' : Resolution F} {v : TypedValue F} (hr : Sound py s r)
    (h : resolveDependency py exhausted below outer t r = .ok (v, r')) :
    Sound py s r' ∧ Extends r r' ∧ Recorded py s scope name r' ∧
      ∀ r'', Extends r' r'' → environment py s r''.values scope name = .ok v := by
  obtain ⟨w, r₁, hresolve, hrest⟩ := stateT_bind_eq_ok.mp h
  have hpair : (w, r₁.record t.id) = (v, r') := Except.ok.inj hrest
  obtain ⟨rfl, rfl⟩ := Prod.mk.inj hpair
  obtain ⟨hsound, hext, -, d, hdone⟩ :=
    resolveConstant_sound hbelow (s.canonical_find hfind) hr hresolve
  have hrecord := record_status r₁ t.id
  refine ⟨sound_of_status hsound hrecord, hext.trans (extends_record r₁ t.id), ?_, ?_⟩
  · exact ⟨t, w, d, hfind, by rw [hrecord]; exact hdone, fun deepest outer hchild =>
      record_deepest hdone hchild⟩
  · intro r'' hext'
    have hlate : r''.status t.id = some (.done w d) :=
      hext'.done t.id w d (by rw [hrecord]; exact hdone)
    unfold environment
    rw [hfind]
    exact Resolution.values_eq_ok.mpr ⟨d, hlate⟩

theorem lookupPackageConstant_sound {below : Option (Lookup F)} (hbelow : BelowSound py s below)
    {outer : Stack F} {scope : Scope} {package name : String}
    (hscope : s.find py scope name = s.findPackageConstant py package name)
    {r r' : Resolution F} {v : TypedValue F} (hr : Sound py s r)
    (h : lookupPackageConstant py exhausted s below outer package name r = .ok (v, r')) :
    Sound py s r' ∧ Extends r r' ∧ Recorded py s scope name r' ∧
      ∀ r'', Extends r' r'' → environment py s r''.values scope name = .ok v := by
  obtain ⟨t, r₁, hlift, hdependency⟩ := stateT_bind_eq_ok.mp h
  obtain ⟨hfind, rfl⟩ := stateT_lift_eq_ok.mp hlift
  exact resolveDependency_sound hbelow (hscope.trans hfind) hr hdependency

theorem lookupName_sound {below : Option (Lookup F)} (hbelow : BelowSound py s below) :
    LookupSound py s (lookupName py exhausted s below) := by
  intro outer scope name r v r' hr h
  cases scope with
  | package package => exact lookupPackageConstant_sound hbelow rfl hr h
  | message owner =>
    obtain ⟨found, r₁, hlift, hrest⟩ := stateT_bind_eq_ok.mp h
    obtain ⟨hfound, rfl⟩ := stateT_lift_eq_ok.mp hlift
    cases found with
    | none =>
      have hscope : s.find py (.message owner) name
          = s.findPackageConstant py owner.package name := by
        rw [Schema.find, hfound]
        rfl
      exact lookupPackageConstant_sound hbelow hscope hr hrest
    | some t =>
      have hfind : s.find py (.message owner) name = .ok t := by
        rw [Schema.find, hfound]
        rfl
      exact resolveDependency_sound hbelow hfind hr hrest

theorem lookupBelow_sound (levels : ℕ) : BelowSound py s (lookupBelow py exhausted s levels) := by
  induction levels with
  | zero => trivial
  | succ levels ih => exact lookupName_sound ih

/-- An array field with a bound, whose references are all resolved. -/
def ArrayDone (py : Python F) (s : Schema F) (m : Message F) (field : ArrayField)
    (r : Resolution F) : Prop :=
  (∃ bound, evaluateArray py s r.values m field = .ok bound) ∧
    ∀ name ∈ referencedNames py (arrayLabel m field) field.arrayExpr,
      ∃ u, s.find py (.message m.toOwner) name = .ok u ∧ r.IsDone u.id

/-- What the walk of a message leaves resolved. -/
def MessageDone (py : Python F) (s : Schema F) (m : Message F) (r : Resolution F) : Prop :=
  (∀ t ∈ m.targets, r.IsDone t.id) ∧ ∀ field ∈ m.fields, ArrayDone py s m field r

/-- Everything a finished walk leaves behind. -/
structure Resolved (py : Python F) (s : Schema F) (r : Resolution F) : Prop where
  sound : Sound py s r
  packages : ∀ t ∈ s.packageTargets, r.IsDone t.id
  messages : ∀ m ∈ s.messages, m.isMapEntry = false → MessageDone py s m r

theorem Resolved.needed {r : Resolution F} (h : Resolved py s r) {t : Target F}
    (ht : Needed py s t) : ∃ v d, r.status t.id = some (.done v d) ∧ Justified py s r t v d := by
  have hdone : r.IsDone t.id := by
    induction ht with
    | ofPackage t ht => exact h.packages t ht
    | ofMessage m t hm hentry ht => exact (h.messages m hm hentry).1 t ht
    | ofArray m field name t hm hentry hfield hname hfind =>
      obtain ⟨u, hu, hdone⟩ := ((h.messages m hm hentry).2 field hfield).2 name hname
      have hut : u = t := by
        rw [hfind] at hu
        exact (Except.ok.inj hu).symm
      exact hut ▸ hdone
    | reference t u ht href ih =>
      obtain ⟨v, d, hstatus⟩ := ih
      obtain ⟨v', d', hstatus', -⟩ := (h.sound t ht.canonical v d hstatus).above u href
      exact ⟨v', d', hstatus'⟩
  obtain ⟨v, d, hstatus⟩ := hdone
  exact ⟨v, d, hstatus, h.sound t ht.canonical v d hstatus⟩

end Soundness

end Protocyte.Constants
