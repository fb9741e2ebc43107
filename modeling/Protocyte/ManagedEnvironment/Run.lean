import Protocyte.ManagedEnvironment.Driver

/-! Runs of the driver: wherever one stops, recovery brings the destination back to what it was, or
to the committed candidate. -/
namespace Protocyte.ManagedEnvironment

open Foundation Foundation.Program

variable {C : Type} {fingerprint : String} {tools : Tools C} {goal : Option (Directory C)}

/-- The previous environment of a transaction is at the destination or in the transaction. -/
theorem Decides.holds {backedUp candidate committed : Option ℕ}
    {destination previous discarded : Option (Directory C)}
    (h : Decides backedUp candidate committed destination previous discarded goal)
    {d : Directory C} (hd : goal = some d) : destination = some d ∨ previous = some d := by
  cases h with
  | untouched => exact .inl hd
  | absent => cases hd
  | promoted => cases hd
  | committed => exact .inl hd
  | kept => exact .inl hd
  | moved => exact .inr hd
  | replaced => exact .inr hd
  | replacedCommitted => exact .inl hd

theorem Recoverable.holds {s : State C} (h : Recoverable fingerprint goal s) {d : Directory C}
    (hd : goal = some d) : s.find .destination = some d ∨ s.find .previous = some d := by
  cases h with
  | idle => exact .inl hd
  | started => exact .inl hd
  | unbound => exact .inl hd
  | opened t f destination previous staging discarded backedUp candidate committed hdecides =>
    exact hdecides.holds hd
  | detaching => exact .inl hd
  | detached => exact .inl hd
  | removed => exact .inl hd

section Undoable

/-- The states the driver restores from: nothing is committed, and the backup is where the record
says. -/
inductive Undoable (fingerprint : String) (goal : Option (Directory C)) : State C → Prop
  | intro (t f destination previous staging discarded backedUp candidate) :
      Decides backedUp candidate none destination previous discarded goal →
      (backedUp.isSome = true → previous.isSome = true) →
      Undoable fingerprint goal (opened fingerprint t f destination previous staging discarded
        backedUp candidate none)

theorem Undoable.recoverable {s : State C} (h : Undoable fingerprint goal s) :
    Recoverable fingerprint goal s ∧ s.committed = false := by
  cases h with
  | intro t f destination previous staging discarded backedUp candidate hdecides _ =>
    exact ⟨.opened _ _ _ _ _ _ _ _ _ hdecides, rfl⟩

attribute [local simp] opened restore claimTransaction rejectTainted ownsPath fingerprintMatches
  ownedIdentity Owner.get moveOwnedDirectory State.parentExists State.find State.rename State.put

/-- A rollback may be killed anywhere. -/
theorem restore_meets {s : State C} (h : Undoable fingerprint goal s) :
    (restore fingerprint).Meets (Recoverable fingerprint goal) (fun _ _ => True)
      (fun _ _ => True) s := by
  cases h with
  | intro t f destination previous staging discarded backedUp candidate hdecides hprevious =>
    have hopened {destination previous discarded backedUp candidate committed}
        (h : Decides backedUp candidate committed destination previous discarded goal) :
        Recoverable fingerprint goal (opened fingerprint t f destination previous staging discarded
          backedUp candidate committed) := .opened _ _ _ _ _ _ _ _ _ h
    have hcleanup {previous discarded backedUp candidate committed}
        (h : Decides backedUp candidate committed goal previous discarded goal) :
        cleanupOwner.Meets (Recoverable fingerprint goal) (fun _ _ => True) (fun _ _ => True)
          (opened fingerprint t f goal previous staging discarded backedUp candidate committed) :=
      (cleanupOwner_opened_cleans t f previous staging discarded _ _ _ (hopened h)).mono
        (fun _ h => h) (fun _ _ _ => trivial) (fun _ _ _ => trivial)
    cases hdecides with
    | untouched =>
      cases goal with
      | none => simpa using hcleanup (.untouched none discarded)
      | some d => simpa [raise] using hopened (.untouched (some d) discarded)
    | absent c => simpa using hcleanup (.absent c discarded)
    | promoted d =>
      simpa using And.intro (hopened (.promoted d)) (hcleanup (.absent d.object (some d)))
    | kept d => cases hprevious rfl
    | moved d =>
      cases candidate with
      | none =>
        simpa using And.intro (hopened (.moved d none discarded))
          (hcleanup (.kept d none discarded))
      | some c =>
        simpa using And.intro (hopened (.moved d (some c) discarded))
          (hcleanup (.kept d (some c) discarded))
    | replaced d d' =>
      have hmoved := hopened (.moved d (some d'.object) (some d'))
      have hkept := hcleanup (.kept d (some d'.object) (some d'))
      simpa using And.intro (hopened (.replaced d d')) (And.intro hmoved hkept)

end Undoable

section Provisioning

/-- The previous environment is where it was, or moved into the transaction. -/
def Kept (goal destination previous : Option (Directory C)) (backedUp : Option ℕ) : Prop :=
  destination = goal ∧ previous = none ∧ backedUp = none ∨
    destination = none ∧ previous = goal ∧ backedUp = goal.map Directory.object

/-- A transaction with a staging directory in the making. -/
def Staged (fingerprint : String) (tools : Tools C) (destination previous : Option (Directory C))
    (backedUp : Option ℕ) (s : State C) : Prop :=
  ∃ staging, s = opened fingerprint tools.transactionObject tools.fingerprintObject destination
    previous staging none backedUp none none ∧
      ∀ d, staging = some d → d.object = tools.stagingObject

variable {destination previous : Option (Directory C)} {backedUp : Option ℕ} {s : State C}

theorem Kept.decides (h : Kept goal destination previous backedUp) :
    Decides backedUp none none destination previous none goal ∧
      (backedUp.isSome = true → previous.isSome = true) := by
  rcases h with ⟨rfl, rfl, rfl⟩ | ⟨rfl, rfl, rfl⟩
  · exact ⟨.untouched destination none, fun h => h⟩
  · cases previous with
    | none => exact ⟨.untouched none none, fun h => h⟩
    | some d => exact ⟨.moved d none none, fun _ => rfl⟩

theorem Staged.undoable (hkept : Kept goal destination previous backedUp)
    (h : Staged fingerprint tools destination previous backedUp s) :
    Undoable fingerprint goal s := by
  obtain ⟨staging, rfl, -⟩ := h
  exact .intro _ _ _ _ _ _ _ _ hkept.decides.1 hkept.decides.2

theorem createEnvironment_meets (hkept : Kept goal destination previous backedUp)
    (h : Staged fingerprint tools destination previous backedUp s) :
    (createEnvironment tools).Meets (Undoable fingerprint goal)
      (fun _ => Staged fingerprint tools destination previous backedUp) (fun _ _ => True) s := by
  apply meets_forM _ (fun t ht => ht.undoable hkept) h
  intro contents _ t ht
  have hwritten : Staged fingerprint tools destination previous backedUp
      (t.put .staging (some ⟨tools.stagingObject, none, contents⟩)) := by
    obtain ⟨staging, rfl, -⟩ := ht
    refine ⟨some ⟨tools.stagingObject, none, contents⟩, rfl, ?_⟩
    rintro d ⟨⟩
    rfl
  exact (meets_modify _ t).mpr ⟨ht.undoable hkept, hwritten.undoable hkept, hwritten⟩

theorem Staged.map (h : Staged fingerprint tools destination previous backedUp s)
    (f : Directory C → Directory C) (hf : ∀ d, (f d).object = d.object) :
    Staged fingerprint tools destination previous backedUp
      (s.put .staging ((s.find .staging).map f)) := by
  obtain ⟨staging, rfl, hobject⟩ := h
  refine ⟨staging.map f, rfl, ?_⟩
  intro d hd
  obtain ⟨d', hd', rfl⟩ := Option.map_eq_some_iff.mp hd
  rw [hf]
  exact hobject d' hd'

theorem runTool_staging_meets (hkept : Kept goal destination previous backedUp)
    (steps : C → List C) (h : Staged fingerprint tools destination previous backedUp s) :
    (runTool .staging steps).Meets (Undoable fingerprint goal)
      (fun _ => Staged fingerprint tools destination previous backedUp) (fun _ _ => True) s := by
  simp only [runTool, get_bind, meets_read]
  cases s.find .staging with
  | none => exact ⟨h.undoable hkept, trivial⟩
  | some directory =>
    apply meets_forM _ (fun t ht => ht.undoable hkept) h
    intro contents _ t ht
    have hwritten := ht.map (fun d => { d with contents }) fun d => rfl
    exact (meets_modify _ t).mpr ⟨ht.undoable hkept, hwritten.undoable hkept, hwritten⟩

/-- A check changes nothing. -/
theorem check_meets {I : State C → Prop} (place : Place) (test : C → Bool) (h : I s) :
    (check place test).Meets I (fun _ t => t = s ∧ ∃ d, s.find place = some d ∧
      test d.contents = true) (fun _ _ => True) s := by
  simp only [check, get_bind, meets_read]
  apply meets_ite
  · intro htest
    cases hfind : s.find place with
    | none => simp [hfind] at htest
    | some d => exact ⟨h, rfl, d, rfl, by simpa [hfind] using htest⟩
  · intro _
    exact ⟨h, trivial⟩

theorem writeReady_meets (hkept : Kept goal destination previous backedUp)
    (h : Staged fingerprint tools destination previous backedUp s) :
    (writeReady fingerprint).Meets (Undoable fingerprint goal)
      (fun _ => Staged fingerprint tools destination previous backedUp) (fun _ _ => True) s := by
  have hnone := h.map (fun d => { d with ready := none }) fun d => rfl
  have hready := hnone.map (fun d => { d with ready := some fingerprint }) fun d => rfl
  simp only [writeReady, modify_bind, meets_write, meets_modify]
  exact ⟨h.undoable hkept, hnone.undoable hkept, hready.undoable hkept, hready⟩

end Provisioning

section Creation

variable {faults : Faults} {s : State C}

/-- A state a creation can be killed in. -/
def Creating (fingerprint : String) (goal : Option (Directory C)) (s : State C) : Prop :=
  (Recoverable fingerprint goal s ∨ Unrecorded goal s) ∧ s.committed = false

theorem Recoverable.creating (h : Recoverable fingerprint goal s) (hs : s.committed = false) :
    Creating fingerprint goal s := ⟨.inl h, hs⟩

theorem Unrecorded.creating (h : Unrecorded goal s) : Creating fingerprint goal s := by
  refine ⟨.inr h, ?_⟩
  cases h
  rfl

theorem reach_meets {I : State C → Prop} {Q : Unit → State C → Prop}
    {E : OwnershipError → State C → Prop} (phase : CreationPhase) (hI : I s) (hQ : Q () s)
    (hE : ∀ e, E e s) : (reach faults phase).Meets I Q E s := by
  unfold reach
  cases faults phase with
  | none => exact ⟨hI, hQ⟩
  | some e => exact ⟨hI, hE e⟩

theorem reach_bind_meets {I : State C → Prop} {Q : Unit → State C → Prop}
    {E : OwnershipError → State C → Prop} {p : Unit → Action C Unit} (phase : CreationPhase)
    (hI : I s) (hE : ∀ e, E e s) (hp : (p ()).Meets I Q E s) :
    (reach faults phase >>= p).Meets I Q E s := by
  refine Meets.bind (reach_meets (Q := fun _ t => t = s) phase hI rfl hE) ?_
  rintro _ t rfl
  exact hp

/-- A directory without a recorded identity is refused. -/
theorem acquireDirectory_unrecorded (destination : Option (Directory C))
    {original : Option (TransactionDirectory C)} {stage : Bool}
    (h : original.isSome = true ∨ stage = true) :
    acquireDirectory creatingOwner (⟨destination, original, none, stage, some creatingOwner⟩ :
      State C) = .error (unownedSiblingError .transaction) := by
  have hany : original.isSome = true ∨ (none : Option (TransactionDirectory C)).isSome = true ∨
      stage = true := h.elim .inl fun hstage => .inr (.inr hstage)
  exact if_pos hany

/-- A cleanup without a commit record makes none. -/
theorem cleanup_keeps_uncommitted (owner : Owner) (howner : owner.committed = none)
    (hs : s.committed = false) : (cleanup owner).Keeps (fun t => t.committed = false) s := by
  have hmarker (location : Location) (t : State C) (ht : t.committed = false) :
      (replaceMarker { owner with location }).Keeps (fun t => t.committed = false) t := by
    refine keeps_modify ht ?_
    simp [State.committed, howner]
  have htree (t : State C) (ht : t.committed = false) :
      removeTree.Keeps (fun t => t.committed = false) t := ⟨ht, ht, ht, ht, ht, ht, ht⟩
  have hremoved (t : State C) (ht : t.committed = false) :
      removeMarker.Keeps (fun t => t.committed = false) t := keeps_modify ht rfl
  have hdetach (t : State C) (ht : t.committed = false) : Keeps (fun t => t.committed = false)
      (if t.detached.isSome then .fail (unownedSiblingError .cleanup)
      else do
        Program.modify fun s => { s with original := none, detached := s.original }
        replaceMarker { owner with location := .cleanup }) t :=
    meets_ite (fun _ => keeps_fail ht) fun _ => ⟨ht, hmarker .cleanup _ ht⟩
  have htransition (atCleanup : Bool) :
      (transitionToCleanup owner atCleanup).Keeps (fun t => t.committed = false) s := by
    cases atCleanup with
    | true =>
      simp only [transitionToCleanup, if_true]
      exact meets_ite (fun _ => hmarker .cleanup s hs) fun _ => keeps_done hs
    | false =>
      simp only [transitionToCleanup, Bool.false_eq_true, if_false, get_bind]
      exact meets_ite (fun _ => Keeps.bind (hmarker .detaching s hs) fun _ => hdetach)
        fun _ => hdetach s hs
  simp only [Keeps, cleanup, get_bind, meets_read]
  cases acquireDirectory owner s with
  | error e => exact keeps_fail hs
  | ok found =>
    cases found with
    | none => exact hremoved s hs
    | some atCleanup =>
      exact Keeps.bind (htransition atCleanup) fun _ t ht =>
        Keeps.bind (htree t ht) fun _ => hremoved

/-- A recorded directory that is given up goes. -/
theorem abandon_recorded_meets (t : TransactionDirectory C) (f : Option Identity) {o : Option Owner}
    {E : OwnershipError → State C → Prop}
    (h : Creating fingerprint goal ⟨goal, some t, none, false, o⟩) :
    (abandon ⟨.original, some ⟨.transaction, t.object⟩, f, none, none, none, none⟩).Meets
      (Creating fingerprint goal) (fun _ _ => True) E ⟨goal, some t, none, false, o⟩ := by
  have hcleanup := cleanup_original_meets (fun _ hu => Or.inl hu) t f none none none h.1
  have huncommitted := cleanup_keeps_uncommitted
    ⟨.original, some ⟨.transaction, t.object⟩, f, none, none, none, none⟩ rfl h.2
  exact (hcleanup.and huncommitted).attempt (fun _ _ _ => trivial) fun _ _ _ => trivial

/-- Before its identity is known a directory is left where it is. -/
theorem abandon_creating_meets {E : OwnershipError → State C → Prop}
    (h : s = ⟨goal, none, none, false, some creatingOwner⟩ ∨ Unrecorded goal s) :
    (abandon creatingOwner).Meets (Creating fingerprint goal) (fun _ _ => True) E s := by
  rcases h with rfl | h
  · have hstarted : Recoverable fingerprint goal
        ⟨goal, none, none, false, some creatingOwner⟩ := .started
    exact ⟨hstarted.creating rfl, Recoverable.idle.creating rfl, trivial⟩
  · have hs : Creating fingerprint goal s := h.creating
    cases h with
    | intro original stage hpresent =>
      have hrefused : acquireDirectory creatingOwner (⟨goal, original, none, stage,
          some ⟨.creating, none, none, none, none, none, none⟩⟩ : State C) =
            .error (unownedSiblingError .transaction) := acquireDirectory_unrecorded goal hpresent
      simp only [abandon, cleanup, get_bind, Program.attempt, meets_read, hrefused]
      exact ⟨hs, trivial⟩

/-- The directory as it was made. -/
def madeDirectory (object : ℕ) : TransactionDirectory C := ⟨object, none, none, none, none⟩

theorem createOwnedDirectory_meets (object : ℕ) :
    (createOwnedDirectory faults object).Meets (Creating fingerprint goal)
      (fun _ t => t = ⟨goal, some (madeDirectory object), none, false, some creatingOwner⟩)
      (fun _ t => t = ⟨goal, none, none, false, some creatingOwner⟩ ∨ Unrecorded goal t)
      (⟨goal, none, none, false, some creatingOwner⟩ : State C) := by
  have hstarted : Creating fingerprint goal
      (⟨goal, none, none, false, some creatingOwner⟩ : State C) :=
    Recoverable.creating .started rfl
  have hunrecorded (original : Option (TransactionDirectory C)) (stage : Bool)
      (h : original.isSome = true ∨ stage = true) :
      Unrecorded goal ⟨goal, original, none, stage, some creatingOwner⟩ := .intro original stage h
  have hstaged := hunrecorded none true (.inr rfl)
  have hpublished := hunrecorded (some (madeDirectory object)) true (.inl rfl)
  have hmade := hunrecorded (some (madeDirectory object)) false (.inl rfl)
  refine Meets.bind (Q := fun _ t => t =
    ⟨goal, some (madeDirectory object), none, true, some creatingOwner⟩) ?_ ?_
  · refine Meets.onFailure (E := fun _ t =>
      t = ⟨goal, none, none, true, some creatingOwner⟩ ∨
        t = ⟨goal, some (madeDirectory object), none, true, some creatingOwner⟩) ?_ ?_
    · refine ⟨hstarted, ?_⟩
      refine reach_bind_meets .staged hstaged.creating (fun _ => .inl rfl) ⟨hstaged.creating, ?_⟩
      exact reach_meets .published hpublished.creating rfl fun _ => .inr rfl
    · rintro e t (rfl | rfl)
      · exact ⟨hstaged.creating, hstarted, .inl rfl⟩
      · exact ⟨hpublished.creating, hmade.creating, .inr hmade⟩
  · rintro _ t rfl
    refine ⟨hpublished.creating, ?_⟩
    exact reach_meets .created hmade.creating rfl fun _ => .inr hmade

theorem createOwnedSibling_meets (object : ℕ) :
    (createOwnedSibling faults object).Meets (Creating fingerprint goal)
      (fun _ t => t =
        ⟨goal, some (madeDirectory object), none, false, some (recordedOwner object)⟩)
      (fun _ _ => True) (idle goal) := by
  have hidle : Creating fingerprint goal (idle goal : State C) := Recoverable.creating .idle rfl
  have hstarted : Creating fingerprint goal
      (⟨goal, none, none, false, some creatingOwner⟩ : State C) :=
    Recoverable.creating .started rfl
  refine Meets.bind (Q := fun _ t => t = ⟨goal, none, none, false, some creatingOwner⟩) ?_ ?_
  · refine Meets.onFailure (E := fun _ t => t = ⟨goal, none, none, false, some creatingOwner⟩)
      ⟨hidle, reach_meets .registered hstarted rfl fun _ => rfl⟩ ?_
    rintro e t rfl
    exact ⟨hstarted, hidle, trivial⟩
  rintro _ t rfl
  refine Meets.bind ((createOwnedDirectory_meets object).onFailure fun e t ht =>
    abandon_creating_meets ht) ?_
  rintro _ t rfl
  have hmade : Unrecorded goal
      (⟨goal, some (madeDirectory object), none, false, some creatingOwner⟩ : State C) :=
    .intro _ _ (.inl rfl)
  have hrecorded : Recoverable fingerprint goal
      (⟨goal, some (madeDirectory object), none, false, some (recordedOwner object)⟩ : State C) :=
    .unbound (madeDirectory object)
  refine Meets.onFailure (E := fun _ t =>
    t = ⟨goal, some (madeDirectory object), none, false, some creatingOwner⟩) ?_ ?_
  · exact reach_bind_meets .identified hmade.creating (fun _ => rfl)
      ⟨hmade.creating, hrecorded.creating rfl, rfl⟩
  · rintro e t rfl
    exact abandon_recorded_meets (madeDirectory object) none hmade.creating

theorem create_meets :
    (create fingerprint tools.transactionObject tools.fingerprintObject tools.faults).Meets
      (fun t => (Recoverable fingerprint goal t ∨ Unrecorded goal t) ∧ t.committed = false)
      (fun _ => Staged fingerprint tools goal none none) (fun _ _ => True) (idle goal) := by
  have hrecorded (f : Option (String × ℕ)) : Creating fingerprint goal (⟨goal,
      some ⟨tools.transactionObject, f, none, none, none⟩, none, false,
      some (recordedOwner tools.transactionObject)⟩ : State C) :=
    Recoverable.creating (.unbound ⟨tools.transactionObject, f, none, none, none⟩) rfl
  have hbound : Creating fingerprint goal (opened fingerprint tools.transactionObject
      tools.fingerprintObject goal none none none none none none) :=
    Recoverable.creating (.opened _ _ _ _ _ _ _ _ _ (.untouched goal none)) rfl
  refine Meets.bind (createOwnedSibling_meets tools.transactionObject) ?_
  rintro _ t rfl
  refine Meets.bind (Q := fun _ t => t = ⟨goal, some ⟨tools.transactionObject,
    some (fingerprint, tools.fingerprintObject), none, none, none⟩, none, false,
    some (recordedOwner tools.transactionObject)⟩) ?_ ?_
  · refine Meets.onFailure (E := fun _ t => ∃ f, t = ⟨goal, some ⟨tools.transactionObject, f, none,
      none, none⟩, none, false, some (recordedOwner tools.transactionObject)⟩) ?_ ?_
    · refine reach_bind_meets .recorded (hrecorded none) (fun _ => ⟨none, rfl⟩)
        ⟨hrecorded none, ?_⟩
      exact reach_meets .named (hrecorded _) rfl fun _ => ⟨_, rfl⟩
    · rintro e t ⟨f, rfl⟩
      exact abandon_recorded_meets ⟨tools.transactionObject, f, none, none, none⟩ none (hrecorded f)
  · rintro _ t rfl
    refine Meets.onFailure (E := fun _ t => ∃ o, t = ⟨goal, some ⟨tools.transactionObject,
      some (fingerprint, tools.fingerprintObject), none, none, none⟩, none, false, o⟩ ∧
        Creating fingerprint goal t) ?_ ?_
    · have hstaged : Staged fingerprint tools goal none none (opened fingerprint
          tools.transactionObject tools.fingerprintObject goal none none none none none none) :=
        ⟨none, rfl, nofun⟩
      exact reach_bind_meets .binding (hrecorded _) (fun _ => ⟨_, rfl, hrecorded _⟩)
        ⟨hrecorded _, reach_meets .bound hbound hstaged fun _ => ⟨_, rfl, hbound⟩⟩
    · rintro e t ⟨o, rfl, ht⟩
      exact abandon_recorded_meets ⟨tools.transactionObject,
        some (fingerprint, tools.fingerprintObject), none, none, none⟩ _ ht

end Creation

section Promotion

/-- The candidate is recorded, and still in the transaction. -/
def Prepared (fingerprint : String) (tools : Tools C) (goal : Option (Directory C))
    (s : State C) : Prop :=
  ∃ d, s = opened fingerprint tools.transactionObject tools.fingerprintObject none goal (some d)
    none (goal.map Directory.object) (some d.object) none ∧
    d.object = tools.stagingObject ∧ d.ready = some fingerprint

/-- The candidate is at the destination. -/
def Promoted (fingerprint : String) (tools : Tools C) (goal : Option (Directory C))
    (s : State C) : Prop :=
  ∃ d, s = opened fingerprint tools.transactionObject tools.fingerprintObject (some d) goal none
    none (goal.map Directory.object) (some d.object) none ∧
    d.object = tools.stagingObject ∧ d.ready = some fingerprint

/-- The candidate is committed. -/
def Committed (fingerprint : String) (tools : Tools C) (goal : Option (Directory C))
    (d : Directory C) (s : State C) : Prop :=
  s = opened fingerprint tools.transactionObject tools.fingerprintObject (some d) goal none
    none (goal.map Directory.object) (some d.object) (some d.object)

variable {s : State C}

theorem Prepared.undoable (h : Prepared fingerprint tools goal s) :
    Undoable fingerprint goal s := by
  obtain ⟨d, rfl, -, -⟩ := h
  cases goal with
  | none => exact .intro _ _ _ _ _ _ _ _ (.absent d.object none) fun h => h
  | some g => exact .intro _ _ _ _ _ _ _ _ (.moved g (some d.object) none) fun _ => rfl

theorem Promoted.undoable (h : Promoted fingerprint tools goal s) :
    Undoable fingerprint goal s := by
  obtain ⟨d, rfl, -, -⟩ := h
  cases goal with
  | none => exact .intro _ _ _ _ _ _ _ _ (.promoted d) fun h => h
  | some g => exact .intro _ _ _ _ _ _ _ _ (.replaced g d) fun _ => rfl

theorem Committed.recoverable {d : Directory C} (h : Committed fingerprint tools goal d s) :
    Recoverable fingerprint (some d) s ∧ s.committed = true := by
  unfold Committed at h
  subst h
  refine ⟨?_, rfl⟩
  cases goal with
  | none => exact .opened _ _ _ _ _ _ _ _ _ (.committed d none)
  | some g => exact .opened _ _ _ _ _ _ _ _ _ (.replacedCommitted g d none)

attribute [local simp] opened claimTransaction rejectTainted ownsPath fingerprintMatches
  ownedIdentity Owner.get moveOwnedDirectory State.parentExists State.find State.rename State.put
  readyEnvironmentIdentity bindIdentity State.withOwner Owner.bind

theorem backupExisting_meets {s : State C}
    (h : Staged fingerprint tools goal none none s) :
    (backupExisting fingerprint).Meets
      (fun t => Recoverable fingerprint goal t ∧ t.committed = false)
      (fun _ => Staged fingerprint tools none goal (goal.map Directory.object))
      (fun _ _ => True) s := by
  have hstart := (h.undoable (.inl ⟨rfl, rfl, rfl⟩)).recoverable
  obtain ⟨staging, rfl, hobject⟩ := h
  have hopened {destination previous : Option (Directory C)} {backedUp : Option ℕ}
      (h : Decides backedUp none none destination previous none goal) :
      let t := opened fingerprint tools.transactionObject tools.fingerprintObject destination
        previous staging none backedUp none none
      Recoverable fingerprint goal t ∧ t.committed = false :=
    ⟨.opened _ _ _ _ _ _ _ _ _ h, rfl⟩
  cases goal with
  | none => simpa [backupExisting] using And.intro hstart ⟨staging, rfl, hobject⟩
  | some d =>
    by_cases hready : d.ready = some fingerprint
    · have hkept := hopened (.kept d none none)
      have hmoved := hopened (.moved d none none)
      simpa [backupExisting, backup, hready] using
        And.intro hstart (And.intro hkept (And.intro hmoved ⟨staging, rfl, hobject⟩))
    · simpa [backupExisting, backup, hready, raise] using hstart

theorem prepareCandidate_meets
    (h : Staged fingerprint tools none goal (goal.map Directory.object) s) :
    (prepareCandidate fingerprint).Meets (Undoable fingerprint goal)
      (fun _ => Prepared fingerprint tools goal) (fun _ _ => True) s := by
  have hstart := h.undoable (.inr ⟨rfl, rfl, rfl⟩)
  obtain ⟨staging, rfl, hobject⟩ := h
  cases staging with
  | none => simpa [prepareCandidate, raise] using hstart
  | some d =>
    by_cases hready : d.ready = some fingerprint
    · have hprepared : Prepared fingerprint tools goal _ := ⟨d, rfl, hobject d rfl, hready⟩
      simpa [prepareCandidate, hready] using
        And.intro hstart (And.intro hprepared.undoable hprepared)
    · simpa [prepareCandidate, hready, raise] using hstart

theorem promote_meets (h : Prepared fingerprint tools goal s) :
    (promote fingerprint).Meets (Undoable fingerprint goal)
      (fun _ => Promoted fingerprint tools goal) (fun _ _ => True) s := by
  have hstart := h.undoable
  obtain ⟨d, rfl, hobject, hready⟩ := h
  have hpromoted : Promoted fingerprint tools goal _ := ⟨d, rfl, hobject, hready⟩
  simpa [promote] using And.intro hstart (And.intro hpromoted.undoable hpromoted)

theorem relocate_meets (h : Promoted fingerprint tools goal s) :
    (runTool .destination tools.relocate).Meets (Undoable fingerprint goal)
      (fun _ => Promoted fingerprint tools goal) (fun _ _ => True) s := by
  simp only [runTool, get_bind, meets_read]
  cases s.find .destination with
  | none => exact ⟨h.undoable, trivial⟩
  | some directory =>
    apply meets_forM _ (fun t ht => ht.undoable) h
    intro contents _ t ht
    have hwritten : Promoted fingerprint tools goal (t.put .destination
        ((t.find .destination).map fun d => { d with contents })) := by
      obtain ⟨d, rfl, hobject, hready⟩ := ht
      exact ⟨{ d with contents }, rfl, hobject, hready⟩
    exact (meets_modify _ t).mpr ⟨ht.undoable, hwritten.undoable, hwritten⟩

/-- Before the commit record the previous destination is the goal, after it the candidate. -/
theorem commit_meets (h : Promoted fingerprint tools goal s) {d : Directory C}
    (hd : s.find .destination = some d) :
    (commit fingerprint).Meets
      (fun t => Recoverable fingerprint goal t ∧ t.committed = false ∨
        Committed fingerprint tools goal d t)
      (fun _ t => Committed fingerprint tools goal d t) (fun _ _ => True) s := by
  have hstart := h.undoable.recoverable
  obtain ⟨d', rfl, hobject, hready⟩ := h
  have hdd : d' = d := Option.some.inj hd
  subst hdd
  have hcommitted : Committed fingerprint tools goal d' _ := rfl
  simpa [commit, hready] using And.intro (Or.inl hstart) (And.intro (Or.inr hcommitted) hcommitted)

theorem cleanupTransaction_meets {d : Directory C} (h : Committed fingerprint tools goal d s) :
    Cleans fingerprint (some d) (cleanupTransaction fingerprint) s := by
  have hstart := h.recoverable.1
  unfold Committed at h
  subst h
  have hcleanup := cleanupOwner_opened_cleans _ _ _ _ _ _ _ _ hstart
  simpa [Cleans, cleanupTransaction] using hcleanup

end Promotion

section Drive

/-- Where a run may stop: what recovery then makes of the destination depends on the commit
record. -/
structure Fate (fingerprint : String) (tools : Tools C) (goal : Option (Directory C))
    (s : State C) (committed : Bool) : Prop where
  undone : committed = false → Recoverable fingerprint goal s ∨ Unrecorded goal s
  done : committed = true →
    ∃ d, Complete fingerprint tools d ∧ Recoverable fingerprint (some d) s

theorem fate_undone {s : State C} (h : Recoverable fingerprint goal s ∨ Unrecorded goal s) :
    Fate fingerprint tools goal s false := ⟨fun _ => h, nofun⟩

theorem fate_done {s : State C} {d : Directory C} (hd : Complete fingerprint tools d)
    (h : Recoverable fingerprint (some d) s) : Fate fingerprint tools goal s true :=
  ⟨nofun, fun _ => ⟨d, hd, h⟩⟩

variable {stage : Stage C} {rest : List (Stage C)} {s u : State C} {c : Bool}
variable {I Q : State C → Prop}

/-- One stage of a run, from the states its action can be killed in and those it ends in. -/
theorem drives_stage (hmeets : stage.action.Meets I (fun _ => Q) (fun _ _ => True) s)
    (hstop : ∀ t, I t → Fate fingerprint tools goal t (s.committed || t.committed))
    (hrollback : stage.rollback = true → ∀ t, I t → Undoable fingerprint goal t)
    (hrest : ∀ t c, Q t → Drives (restore fingerprint) rest t u c →
      Fate fingerprint tools goal u (s.committed || c))
    (h : Drives (restore fingerprint) (stage :: rest) s u c) : Fate fingerprint tools goal u c := by
  have hs : I s := hmeets.stops (start_mem_visited stage.action s)
  cases h with
  | stopped => simpa using hstop s hs
  | inside _ _ _ t ht => exact hstop u (hmeets.stops ht)
  | rolledBack _ _ _ t _ hpolicy ht hu =>
    have hundoable := hrollback hpolicy t (hmeets.stops ht)
    have hstart := (hrollback hpolicy s hs).recoverable.2
    rw [hstart, hundoable.recoverable.2]
    exact fate_undone (.inl ((restore_meets hundoable).stops hu))
  | next _ _ _ t _ c ht hdrives => exact hrest t c (hmeets.finishes ht) hdrives

/-- A stage before the commit: what it leaves can be undone. -/
theorem drives_undoable (hs : s.committed = false)
    (hmeets : stage.action.Meets (Undoable fingerprint goal) (fun _ => Q) (fun _ _ => True) s)
    (hrest : ∀ t c, Q t → Drives (restore fingerprint) rest t u c →
      Fate fingerprint tools goal u c)
    (h : Drives (restore fingerprint) (stage :: rest) s u c) : Fate fingerprint tools goal u c := by
  apply drives_stage hmeets _ (fun _ t ht => ht) _ h
  · intro t ht
    rw [hs, ht.recoverable.2]
    exact fate_undone (.inl ht.recoverable.1)
  · intro t c ht hdrives
    rw [hs, Bool.false_or]
    exact hrest t c ht hdrives

theorem Staged.committed {destination previous : Option (Directory C)} {backedUp : Option ℕ}
    (h : Staged fingerprint tools destination previous backedUp s) : s.committed = false := by
  obtain ⟨staging, rfl, -⟩ := h
  rfl

/-- The stages from the commit on. -/
theorem drives_commit (hs : Promoted fingerprint tools goal s) {d : Directory C}
    (hd : s.find .destination = some d) (hverify : tools.verify d.contents = true)
    (h : Drives (restore fingerprint) [⟨commit fingerprint, false⟩,
      ⟨cleanupTransaction fingerprint, false⟩] s u c) : Fate fingerprint tools goal u c := by
  have hstart := hs.undoable.recoverable.2
  have hcomplete : Complete fingerprint tools d := by
    obtain ⟨d', rfl, hobject, hready⟩ := hs
    have hdd : d' = d := Option.some.inj hd
    subst hdd
    exact ⟨hobject, hready, hverify⟩
  apply drives_stage (commit_meets hs hd) _ nofun _ h
  · rintro t (⟨ht, hcommitted⟩ | ht)
    · rw [hstart, hcommitted]
      exact fate_undone (.inl ht)
    · rw [ht.recoverable.2, Bool.or_true]
      exact fate_done hcomplete ht.recoverable.1
  · intro t c ht hdrives
    have hcleans := (cleanupTransaction_meets ht).mono (fun _ h => h) (fun _ _ h => h)
      (fun _ _ _ => trivial)
    rw [hstart, Bool.false_or]
    apply drives_stage hcleans _ nofun _ hdrives
    · intro v hv
      rw [ht.recoverable.2, Bool.true_or]
      exact fate_done hcomplete hv
    · intro v c' hv hend
      rw [ht.recoverable.2, Bool.true_or]
      cases hend with
      | stopped =>
        rw [hv]
        exact fate_done hcomplete .idle

/-- The stages from the backup on. -/
theorem drives_backedUp (hs : Staged fingerprint tools none goal (goal.map Directory.object) s)
    (h : Drives (restore fingerprint) ((driver fingerprint tools).drop 4) s u c) :
    Fate fingerprint tools goal u c := by
  have hkept : Kept goal none goal (goal.map Directory.object) := .inr ⟨rfl, rfl, rfl⟩
  apply drives_undoable hs.committed (runTool_staging_meets hkept tools.stageProject hs) _ h
  intro s c hs h
  apply drives_undoable hs.committed (runTool_staging_meets hkept tools.bootstrap hs) _ h
  intro s c hs h
  apply drives_undoable hs.committed (runTool_staging_meets hkept tools.install hs) _ h
  intro s c hs h
  apply drives_undoable hs.committed (check_meets .staging tools.verify (hs.undoable hkept)) _ h
  rintro _ c ⟨rfl, -⟩ h
  apply drives_undoable hs.committed (writeReady_meets hkept hs) _ h
  intro s c hs h
  apply drives_undoable hs.committed (prepareCandidate_meets hs) _ h
  intro s c hs h
  apply drives_undoable hs.undoable.recoverable.2 (promote_meets hs) _ h
  intro s c hs h
  apply drives_undoable hs.undoable.recoverable.2 (relocate_meets hs) _ h
  intro s c hs h
  apply drives_undoable hs.undoable.recoverable.2
    (check_meets .destination tools.verify hs.undoable) _ h
  rintro _ c ⟨rfl, d, hd, hverify⟩ h
  exact drives_commit hs hd hverify h

/-- Every run of the driver. -/
theorem Run.fate (h : Run fingerprint tools goal u c) : Fate fingerprint tools goal u c := by
  apply drives_stage create_meets _ nofun _ h
  · rintro t ⟨ht, hcommitted⟩
    rw [hcommitted]
    exact fate_undone ht
  · intro s c hs h
    have hkept : Kept goal goal none none := .inl ⟨rfl, rfl, rfl⟩
    apply drives_undoable hs.committed (createEnvironment_meets hkept hs) _ h
    intro s c hs h
    apply drives_undoable hs.committed
      (check_meets .staging tools.pipConfiguration (hs.undoable hkept)) _ h
    rintro _ c ⟨rfl, -⟩ h
    apply drives_stage (backupExisting_meets hs) _ nofun _ h
    · rintro t ⟨ht, hcommitted⟩
      rw [hs.committed, hcommitted]
      exact fate_undone (.inl ht)
    · intro t c ht h
      rw [hs.committed, Bool.false_or]
      exact drives_backedUp ht h

end Drive

section Recover

variable {start : Option (Directory C)} {u v : State C} {c : Bool}

/-- Interrupted recoveries keep the goal. -/
theorem Recoverable.recovers (hu : Recoverable fingerprint goal u)
    (h : Recovers fingerprint u v) : Recoverable fingerprint goal v := by
  induction h with
  | refl => exact hu
  | tail _ hstops ih => exact (recover_cleans ih).stops hstops

theorem Recoverable.finishes (h : Recoverable fingerprint goal v) :
    (recover fingerprint).Finishes v () (ManagedEnvironment.idle goal) := by
  obtain ⟨_, t, hfinishes, ht⟩ := (recover_cleans h).total
  rw [ht] at hfinishes
  exact hfinishes

/-- Recovery refuses a transaction directory without a recorded identity, and leaves it. -/
theorem Unrecorded.recover (h : Unrecorded start u) :
    (recover fingerprint).run u = (.error (unownedSiblingError .transaction), u) ∧
      (recover fingerprint).visited u = [u] := by
  cases h with
  | intro original stage hpresent =>
    have hrefused : acquireDirectory ⟨.creating, none, none, none, none, none, none⟩
        (⟨start, original, none, stage, some ⟨.creating, none, none, none, none, none, none⟩⟩ :
          State C) = .error (unownedSiblingError .transaction) := by
      unfold acquireDirectory
      have hany : original.isSome = true ∨ (none : Option (TransactionDirectory C)).isSome = true ∨
          stage = true := hpresent.elim .inl fun hstage => .inr (.inr hstage)
      exact if_pos hany
    constructor <;>
      simp [ManagedEnvironment.recover, Program.run, Program.visited,
        resumeIncompleteOwnerCleanup, rejectTainted, cleanup, hrefused]

theorem Unrecorded.recovers (hu : Unrecorded start u) (h : Recovers fingerprint u v) : v = u := by
  induction h with
  | refl => rfl
  | tail _ hstops ih =>
    subst ih
    unfold Stops at hstops
    rw [hu.recover.2] at hstops
    exact List.mem_singleton.mp hstops

end Recover

/-- Wherever a run of the driver stops, and however often its recovery is interrupted, the next
recovery leaves no transaction and the committed candidate or the destination of before at its
place; until then one of them is there or in the transaction. A run stopped before the identity of
its transaction directory was recorded is refused, with the destination of before. -/
theorem recover_after_run (start : Option (Directory C)) (u v : State C) (committed : Bool)
    (hrun : Run fingerprint tools start u committed) (hrecovers : Recovers fingerprint u v) :
    (Unrecorded start u ∧ v = u ∧ committed = false ∧ u.find .destination = start ∧
        (recover fingerprint).run v = (.error (unownedSiblingError .transaction), v)) ∨
      ∃ goal, (recover fingerprint).Finishes v () (idle goal) ∧
        (committed = false → goal = start) ∧
        (committed = true → ∃ d, goal = some d ∧ Complete fingerprint tools d) ∧
        ∀ d, goal = some d → v.find .destination = some d ∨ v.find .previous = some d := by
  have hfate := hrun.fate
  cases committed with
  | false =>
    cases hfate.undone rfl with
    | inl hu =>
      right
      have hv := hu.recovers hrecovers
      exact ⟨start, hv.finishes, fun _ => rfl, nofun, fun d hd => hv.holds hd⟩
    | inr hu =>
      left
      have hv := hu.recovers hrecovers
      subst hv
      have hdestination : v.find .destination = start := by
        cases hu
        rfl
      exact ⟨hu, rfl, rfl, hdestination, hu.recover.1⟩
  | true =>
    right
    obtain ⟨d, hcomplete, hu⟩ := hfate.done rfl
    have hv := hu.recovers hrecovers
    exact ⟨some d, hv.finishes, nofun, fun _ => ⟨d, rfl, hcomplete⟩, fun d hd => hv.holds hd⟩

/-- Tools whose commands leave a number behind. -/
def sampleTools : Tools ℕ :=
  ⟨1, 2, 3, fun _ => none, [0], fun _ => [1], fun _ => [2], fun _ => [3], fun _ => [4], fun _ => true,
    fun contents => 3 ≤ contents⟩

def sampleEnvironment : Directory ℕ := ⟨7, some "f", 9⟩

/-- The candidate has just been moved to the destination. -/
def samplePromoted : State ℕ :=
  opened "f" 1 2 (some ⟨3, some "f", 3⟩) (some sampleEnvironment) none none (some 7) (some 3) none

theorem recover_after_run_promoted :
    Run "f" sampleTools (some sampleEnvironment) samplePromoted false ∧
      (recover "f").Finishes samplePromoted () (idle (some sampleEnvironment)) := by
  have hrun : Run "f" sampleTools (some sampleEnvironment) samplePromoted false :=
    .next _ _ _ _ _ false rfl (.next _ _ _ _ _ false rfl (.next _ _ _ _ _ false rfl
      (.next _ _ _ _ _ false rfl (.next _ _ _ _ _ false rfl (.next _ _ _ _ _ false rfl
      (.next _ _ _ _ _ false rfl (.next _ _ _ _ _ false rfl (.next _ _ _ _ _ false rfl
      (.next _ _ _ _ _ false rfl (.next _ _ _ _ _ false rfl (.stopped _ _)))))))))))
  refine ⟨hrun, ?_⟩
  rcases recover_after_run _ _ _ _ hrun .refl with ⟨hunrecorded, -⟩ | ⟨goal, hfinishes, hgoal, -⟩
  · cases hunrecorded
  · rw [hgoal rfl] at hfinishes
    exact hfinishes

/-- The transaction directory has just been made. -/
def sampleUnrecorded : State ℕ :=
  ⟨none, some ⟨1, none, none, none, none⟩, none, false,
    some ⟨.creating, none, none, none, none, none, none⟩⟩

/-- A run killed when it has made its transaction directory, but not recorded its identity, leaves
a transaction that no recovery removes. -/
theorem recover_fails_unrecorded :
    ¬ ∀ (start : Option (Directory ℕ)) (u v : State ℕ) (committed : Bool),
      Run "f" sampleTools start u committed → Recovers "f" u v →
        ∃ goal, (recover "f").Finishes v () (idle goal) := by
  intro h
  have hstops : (create "f" 1 2 fun _ => none : Action ℕ Unit).Stops (idle none) sampleUnrecorded :=
    .tail _ (.tail _ (.tail _ (.tail _ (.head _))))
  have hrun : Run "f" sampleTools none sampleUnrecorded false := .inside _ _ _ _ hstops
  obtain ⟨goal, hfinishes⟩ := h none _ _ false hrun .refl
  have hunrecorded : Unrecorded none sampleUnrecorded := .intro _ _ (.inl rfl)
  have hrefused : (recover "f").run sampleUnrecorded = _ := hunrecorded.recover.1
  unfold Finishes at hfinishes
  rw [hrefused] at hfinishes
  cases (Prod.mk.inj hfinishes).1

end Protocyte.ManagedEnvironment
