import Protocyte.Constants.Walk

/-! The walk succeeds wherever the definitions have a solution and the references are short and
acyclic. -/
namespace Protocyte.Constants

open Foundation Foundation.Computation

variable {F : Type}

section Short

variable (py : Python F) (s : Schema F)

/-- No chain of references from a constant has more than so many constants. -/
def Short : ℕ → Target F → Prop
  | 0, _ => False
  | n + 1, t => ∀ u, References py s t u → Short n u

variable {py s}

/-- A constant that is not short starts a chain that is too long. -/
theorem exists_chain_of_not_short {n : ℕ} {t : Target F} (h : ¬ Short py s n t) :
    ∃ chain, (t :: chain).IsChain (References py s) ∧ chain.length = n := by
  induction n generalizing t with
  | zero => exact ⟨[], List.IsChain.singleton t, rfl⟩
  | succ n ih =>
    unfold Short at h
    push Not at h
    obtain ⟨u, href, hu⟩ := h
    obtain ⟨chain, hchain, hlength⟩ := ih hu
    exact ⟨u :: chain, List.isChain_cons_cons.mpr ⟨href, hchain⟩, by simp [hlength]⟩

theorem needed_of_chain {t : Target F} {chain : List (Target F)} (ht : Needed py s t)
    (h : (t :: chain).IsChain (References py s)) : ∀ u ∈ t :: chain, Needed py s u := by
  induction chain generalizing t with
  | nil =>
    intro u hu
    rw [List.mem_singleton.mp hu]
    exact ht
  | cons next chain ih =>
    obtain ⟨href, hrest⟩ := List.isChain_cons_cons.mp h
    intro u hu
    cases List.mem_cons.mp hu with
    | inl heq => exact heq ▸ ht
    | inr hmem => exact ih (.reference t next ht href) hrest u hmem

theorem WellFounded.short_needed (h : WellFounded py s) {t : Target F} (ht : Needed py s t) :
    Short py s maxConstantDependencyDepth t := by
  by_contra hlong
  obtain ⟨chain, hchain, hlength⟩ := exists_chain_of_not_short hlong
  have hbound := h.short (t :: chain) hchain (needed_of_chain ht hchain)
  rw [List.length_cons, hlength] at hbound
  omega

end Short

section Solution

variable {py : Python F} {s : Schema F}

/-- The value of a definition depends on the constants it refers to. -/
theorem Target.evaluate_congr {values values' : ConstantId → Result (TypedValue F)} {t : Target F}
    (h : ∀ u, References py s t u → values' u.id = values u.id) :
    t.evaluate py s values' = t.evaluate py s values := by
  unfold Target.evaluate
  cases hdef : t.constant.definition with
  | literal value => rfl
  | expr text =>
    simp only
    have heval : (parseExpression py t.constant.fullName text).eval
        (environment py s values' t.scope)
        = (parseExpression py t.constant.fullName text).eval (environment py s values t.scope) := by
      apply Query.eval_congr
      intro name hname
      have hnames := asked_subset py t.constant.fullName text (environment py s values t.scope) name hname
      unfold environment
      cases hfind : s.find py t.scope name with
      | error e => rfl
      | ok u =>
        apply h u
        refine ⟨name, ?_, hfind⟩
        unfold Target.names
        rw [hdef]
        exact hnames
    rw [heval]

/-- Definitions without long chains of references determine the values. -/
theorem Solves.unique {values values' : ConstantId → TypedValue F} (h : Solves py s values)
    (h' : Solves py s values') {n : ℕ} {t : Target F} (hshort : Short py s n t)
    (ht : Needed py s t) : values' t.id = values t.id := by
  induction n generalizing t with
  | zero => cases hshort
  | succ n ih =>
    have heval : t.evaluate py s (fun id => .ok (values' id))
        = t.evaluate py s fun id => .ok (values id) := by
      apply Target.evaluate_congr
      intro u href
      rw [ih (hshort u href) (.reference t u ht href)]
    rw [h.constants t ht, h'.constants t ht] at heval
    exact Except.ok.inj heval

end Solution

section Success

variable (py : Python F) (exhausted : Interpreter F) (s : Schema F)
  (values : ConstantId → TypedValue F)

/-- Every constant done has its value, and a depth that no longest chain from it exceeds. -/
structure Agrees (r : Resolution F) : Prop where
  sound : Sound py s r
  done : ∀ t, Needed py s t → ∀ v d, r.status t.id = some (.done v d) →
    v = values t.id ∧ ∀ k, Short py s k t → d ≤ k

/-- The constants in progress are those the walk came through. -/
def OnPath (r : Resolution F) (t : Target F) : Prop :=
  ∀ u, Needed py s u → r.status u.id = some .visiting →
    Relation.TransGen (References py s) u t

/-- The deepest dependency seen so far of the constant in progress. -/
def HeadShort (r : Resolution F) (t : Target F) : Prop :=
  ∀ k, Short py s (k + 1) t → r.childDepths.headD 0 ≤ k

/-- What the induction on the levels left says of a walk below a constant. -/
def Succeeds (below : Option (Lookup F)) (t : Target F) : Prop :=
  ∀ outer r, Awaits py s outer t → Agrees py s values r → OnPath py s r t →
    Ends (resolveConstant py exhausted below outer t r)
      (fun v r' => v = values t.id ∧ Agrees py s values r') (StopsAt py s exhausted)

variable {py exhausted s values}

theorem Agrees.of_status {r r' : Resolution F} (h : Agrees py s values r)
    (hstatus : r'.status = r.status) : Agrees py s values r' := by
  constructor
  · exact sound_of_status h.sound hstatus
  · intro t ht v d hd
    rw [hstatus] at hd
    exact h.done t ht v d hd

theorem proceed_ends {inv : Resolution F → Prop} {outer : Stack F} {activation : Activation F}
    (hactive : Active py s (activation :: outer)) {r : Resolution F} (hr : inv r) :
    Ends (proceed exhausted outer activation r) (fun _ => inv) (StopsAt py s exhausted) := by
  unfold proceed
  cases hstop : exhausted (activation :: outer) r with
  | true => exact ⟨activation, outer, r, hactive, hstop, rfl⟩
  | false => exact hr

/-- A parser has the value of its expression where each name has, or the stack ends. -/
theorem parse_ends {inv : Resolution F → Prop}
    {lookup : Stack F → String → ResolverM F (TypedValue F)} {outer : Stack F}
    {label text : String}
    (hactive : ∀ answers moment, Active py s (⟨label, text, answers, moment⟩ :: outer))
    {env : Environment F} {v : TypedValue F}
    (heval : (parseExpression py label text).eval env = .ok v)
    (hlookup : ∀ name ∈ (parseExpression py label text).asked env, ∀ answers r w, inv r →
      env name = .ok w → Ends (lookup (⟨label, text, answers, .asking name⟩ :: outer) name r)
        (fun w' r' => w' = w ∧ inv r') (StopsAt py s exhausted))
    {r : Resolution F} (hr : inv r) :
    Ends (parse py exhausted outer label text lookup r) (fun v' r' => v' = v ∧ inv r')
      (StopsAt py s exhausted) := by
  refine Query.run_ends inv _ (fun answers r hr => proceed_ends (hactive answers _) hr) _ hr heval ?_
  intro name hname answers r w hr hw
  refine (proceed_ends (hactive answers _) hr).bind fun _ r₁ hr₁ => ?_
  refine (hlookup name hname answers r₁ w hr₁ hw).bind fun w' r₂ hr₂ => ?_
  exact (proceed_ends (hactive answers _) hr₂.2).bind fun _ r₃ hr₃ => ⟨hr₂.1, hr₃⟩

theorem lookupName_of_find (below : Option (Lookup F)) (outer : Stack F) {scope : Scope}
    {name : String} {u : Target F} (hfind : s.find py scope name = .ok u) (r : Resolution F) :
    lookupName py exhausted s below outer scope name r
      = resolveDependency py exhausted below outer u r := by
  have hpackage : ∀ package, s.findPackageConstant py package name = .ok u →
      lookupPackageConstant py exhausted s below outer package name r
        = resolveDependency py exhausted below outer u r := by
    intro package hu
    unfold lookupPackageConstant
    rw [hu]
    rfl
  cases scope with
  | package package => exact hpackage package hfind
  | message owner =>
    obtain ⟨found, hfound, hrest⟩ := except_bind_eq_ok.mp hfind
    change lookupConstant py exhausted s below outer owner name r = _
    unfold lookupConstant
    rw [hfound]
    cases found with
    | none => exact hpackage owner.package hrest
    | some target =>
      have htarget : target = u := Except.ok.inj hrest
      rw [htarget]
      rfl

theorem agrees_enter {r : Resolution F} (h : Agrees py s values r) {id : ConstantId}
    (hid : r.status id = none) : Agrees py s values (r.enter id) := by
  constructor
  · exact sound_enter h.sound hid
  · intro t ht v d hd
    by_cases hne : t.id = id
    · rw [hne] at hd
      have hmark : (r.enter id).status id = some .visiting := status_mark_self r id .visiting
      rw [hmark] at hd
      cases hd
    · exact h.done t ht v d ((status_mark_of_ne r hne .visiting).symm.trans hd)

/-- The deepest dependency seen stays below a chain that a new dependency lies on. -/
theorem headShort_record {r : Resolution F} {t u : Target F} (h : HeadShort py s r t)
    (href : References py s t u) (hu : Needed py s u) (hr : Agrees py s values r) :
    HeadShort py s (r.record u.id) t := by
  intro k hk
  unfold Resolution.record
  split
  · rename_i seen outer v d hchild hstatus
    have hseen : seen ≤ k := by
      have hhead := h k hk
      rw [hchild] at hhead
      exact hhead
    have hdepth : d ≤ k := (hr.done u hu v d hstatus).2 k (hk u href)
    exact Nat.max_le.mpr ⟨hseen, hdepth⟩
  · exact h k hk

/-- The state of the walk below a constant in progress. -/
structure InProgress (py : Python F) (s : Schema F) (values : ConstantId → TypedValue F)
    (start : Resolution F) (t : Target F) (r : Resolution F) : Prop where
  agrees : Agrees py s values r
  later : Extends (start.enter t.id) r
  head : HeadShort py s r t

theorem InProgress.lookup {below : Option (Lookup F)}
    (hbelow : BelowSound py s below) {start : Resolution F} {t u : Target F} (ht : Needed py s t)
    (hpath : OnPath py s start t) (hsucceeds : Succeeds py exhausted s values below u)
    {name : String} (hname : name ∈ t.names py) (hfind : s.find py t.scope name = .ok u)
    {outer : Stack F} (houter : Awaits py s outer u) {r : Resolution F}
    (hr : InProgress py s values start t r) :
    Ends (lookupName py exhausted s below outer t.scope name r)
      (fun v r' => v = values u.id ∧ InProgress py s values start t r')
      (StopsAt py s exhausted) := by
  have href : References py s t u := ⟨name, hname, hfind⟩
  have hu : Needed py s u := .reference t u ht href
  have hupath : OnPath py s r u := by
    intro w hw hvisiting
    have henter := (hr.later.visiting w.id).mp hvisiting
    by_cases hwt : w.id = t.id
    · rw [Schema.canonical_unique hw.canonical ht.canonical hwt]
      exact .single href
    · have hstart : start.status w.id = some .visiting :=
        (status_mark_of_ne start hwt .visiting).symm.trans henter
      exact (hpath w hw hstart).tail href
  rw [lookupName_of_find below outer hfind]
  refine ((hsucceeds outer r houter hr.agrees hupath).mono
    fun v r' hresolve hv => And.intro hresolve hv).bind fun v r' hv => ?_
  obtain ⟨hresolve, hvalue, hagrees⟩ := hv
  obtain ⟨-, hext, hchild, -⟩ :=
    resolveConstant_sound hbelow hu.canonical hr.agrees.sound hresolve
  refine ⟨hvalue, ?_⟩
  constructor
  · exact hagrees.of_status (record_status r' u.id)
  · exact (hr.later.trans hext).trans (extends_record r' u.id)
  · apply headShort_record _ href hu hagrees
    intro k hk
    rw [hchild]
    exact hr.head k hk

/-- A definition is evaluated to the value of its constant, or the stack ends. -/
theorem constantValue_ends (hsolves : Solves py s values) {below : Option (Lookup F)}
    (hbelow : BelowSound py s below) {start : Resolution F} {t : Target F} (ht : Needed py s t)
    (hpath : OnPath py s start t) (hstart : start.status t.id = none)
    (hagrees : Agrees py s values start)
    (hsucceeds : ∀ u, References py s t u → Succeeds py exhausted s values below u)
    {outer : Stack F} (houter : Awaits py s outer t) :
    Ends (constantValue py exhausted outer
        (fun stack => lookupName py exhausted s below stack t.scope) t.constant (start.enter t.id))
      (fun v r' => v = values t.id ∧ InProgress py s values start t r')
      (StopsAt py s exhausted) := by
  have hinit : InProgress py s values start t (start.enter t.id) :=
    ⟨agrees_enter hagrees hstart, extends_refl _, fun k _ => Nat.zero_le k⟩
  have hvalue := hsolves.constants t ht
  unfold Target.evaluate at hvalue
  unfold constantValue
  cases hdef : t.constant.definition with
  | literal value =>
    rw [hdef] at hvalue
    exact .of_ok (stateT_lift_eq_ok.mpr ⟨hvalue, rfl⟩) ⟨rfl, hinit⟩
  | expr text =>
    rw [hdef] at hvalue
    simp only at hvalue ⊢
    obtain ⟨parsed, heval, hcoerce⟩ := except_bind_eq_ok.mp hvalue
    have hactive : ∀ answers moment,
        Active py s (⟨t.constant.fullName, text, answers, moment⟩ :: outer) :=
      fun answers moment => .constant t outer _ houter ⟨rfl, hdef⟩
    have hlookup : ∀ name ∈ (parseExpression py t.constant.fullName text).asked
          (environment py s (fun id => .ok (values id)) t.scope), ∀ answers r w,
        InProgress py s values start t r →
        environment py s (fun id => .ok (values id)) t.scope name = .ok w →
        Ends (lookupName py exhausted s below
            (⟨t.constant.fullName, text, answers, .asking name⟩ :: outer) t.scope name r)
          (fun w' r' => w' = w ∧ InProgress py s values start t r') (StopsAt py s exhausted) := by
      intro name hname answers r w hr hw
      have hmem : name ∈ t.names py := by
        unfold Target.names
        rw [hdef]
        exact asked_subset py t.constant.fullName text _ name hname
      obtain ⟨u, hfind, hu⟩ := except_bind_eq_ok.mp hw
      have huw : values u.id = w := Except.ok.inj hu
      rw [← huw]
      exact hr.lookup hbelow ht hpath (hsucceeds u ⟨name, hmem, hfind⟩) hmem hfind
        (.reference t u outer _ name houter ⟨rfl, hdef⟩ rfl hmem hfind)
    refine (parse_ends hactive heval hlookup hinit).bind fun v r' hv => ?_
    rw [hv.1]
    exact .of_ok (stateT_lift_eq_ok.mpr ⟨hcoerce, rfl⟩) ⟨rfl, hv.2⟩

theorem agrees_leave {start r : Resolution F} {t : Target F} (ht : Needed py s t)
    (hr : InProgress py s values start t r)
    (hsound : Sound py s (r.leave t.id (values t.id) (r.childDepths.headD 0 + 1))) :
    Agrees py s values (r.leave t.id (values t.id) (r.childDepths.headD 0 + 1)) := by
  constructor
  · exact hsound
  · intro u hu v d hd
    by_cases hut : u.id = t.id
    · have heq := Schema.canonical_unique hu.canonical ht.canonical hut
      subst heq
      have hmark : (r.leave u.id (values u.id) (r.childDepths.headD 0 + 1)).status u.id
          = some (.done (values u.id) (r.childDepths.headD 0 + 1)) := status_mark_self r u.id _
      rw [hmark] at hd
      injection hd with hd
      injection hd with hv hdepth
      refine ⟨hv.symm, ?_⟩
      intro k hk
      cases k with
      | zero => cases hk
      | succ k =>
        rw [← hdepth]
        exact Nat.succ_le_succ (hr.head k hk)
    · exact hr.agrees.done u hu v d ((status_mark_of_ne r hut _).symm.trans hd)

/-- With enough levels left the walk gives every constant its value from every state it can be in,
unless the stack ends. -/
theorem resolveConstant_ends (hwf : WellFounded py s) (hsolves : Solves py s values)
    {levels : ℕ} (hlevels : levels ≤ maxConstantDependencyDepth) {t : Target F}
    (ht : Needed py s t) (hshort : Short py s levels t) :
    Succeeds py exhausted s values (lookupBelow py exhausted s levels) t := by
  induction levels generalizing t with
  | zero => cases hshort
  | succ levels ih =>
    intro outer r houter hr hpath
    have hbelow : BelowSound py s (lookupBelow py exhausted s levels) := lookupBelow_sound levels
    cases hstatus : r.status t.id with
    | some status =>
      cases status with
      | visiting => exact absurd (hpath t ht hstatus) (hwf.acyclic t ht)
      | done v d =>
        have hresolve : resolveConstant py exhausted (lookupBelow py exhausted s (levels + 1)) outer
            t r = .ok (v, r) := by
          unfold resolveConstant
          rw [hstatus]
        exact .of_ok hresolve ⟨(hr.done t ht v d hstatus).1, hr⟩
    | none =>
      have hvalue := constantValue_ends hsolves hbelow ht hpath hstatus hr
        (fun u href => ih (Nat.le_of_succ_le hlevels) (.reference t u ht href) (hshort u href))
        houter
      cases hrun : constantValue py exhausted outer (fun stack =>
          lookupName py exhausted s (lookupBelow py exhausted s levels) stack t.scope) t.constant
          (r.enter t.id) with
      | error e =>
        rw [hrun] at hvalue
        have hresolve : resolveConstant py exhausted (lookupBelow py exhausted s (levels + 1)) outer
            t r = .error e := by
          unfold resolveConstant
          rw [hstatus]
          simp only [lookupBelow]
          rw [hrun]
          rfl
        exact .of_error hresolve hvalue
      | ok p =>
        obtain ⟨v, r₁⟩ := p
        rw [hrun] at hvalue
        obtain ⟨rfl, hr₁⟩ := hvalue
        have hhead : r₁.childDepths.headD 0 ≤ levels := hr₁.head levels hshort
        have hresolve : resolveConstant py exhausted (lookupBelow py exhausted s (levels + 1)) outer
            t r = .ok (values t.id, r₁.leave t.id (values t.id) (r₁.childDepths.headD 0 + 1)) := by
          unfold resolveConstant
          rw [hstatus]
          simp only [lookupBelow]
          rw [hrun]
          have hdepth : ¬ r₁.childDepths.headD 0 + 1 > maxConstantDependencyDepth := by omega
          simp only [bind, Except.bind, if_neg hdepth]
        refine .of_ok hresolve ⟨rfl, agrees_leave ht hr₁ ?_⟩
        exact (resolveConstant_sound (lookupBelow_sound (levels + 1)) ht.canonical hr.sound
          hresolve).1

/-- The walk between two declarations: nothing is in progress. -/
structure Idle (py : Python F) (s : Schema F) (values : ConstantId → TypedValue F)
    (r : Resolution F) : Prop where
  agrees : Agrees py s values r
  visiting : ∀ id, r.status id ≠ some .visiting

theorem Idle.resolve (hwf : WellFounded py s) (hsolves : Solves py s values) {t : Target F}
    (ht : Needed py s t) {outer : Stack F} (houter : Awaits py s outer t) {r : Resolution F}
    (hr : Idle py s values r) :
    Ends (resolveConstant py exhausted (topLevel py exhausted s) outer t r)
      (fun v r' => v = values t.id ∧ Idle py s values r') (StopsAt py s exhausted) := by
  have hpath : OnPath py s r t := fun u _ h => absurd h (hr.visiting u.id)
  refine (resolveConstant_ends hwf hsolves (Nat.le_refl _) ht (hwf.short_needed ht) outer r houter
    hr.agrees hpath).mono fun v r' hresolve hv => ⟨hv.1, hv.2, ?_⟩
  obtain ⟨-, hext, -, -⟩ := resolveConstant_sound
    (lookupBelow_sound maxConstantDependencyDepth) ht.canonical hr.agrees.sound hresolve
  intro id hid
  exact hr.visiting id ((hext.visiting id).mp hid)

end Success

end Protocyte.Constants
