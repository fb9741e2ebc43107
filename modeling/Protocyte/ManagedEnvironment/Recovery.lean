import Protocyte.ManagedEnvironment.Transaction

/-! The states a crash can leave, with the destination each is to be recovered to, and recovery
from all of them. -/
namespace Protocyte.ManagedEnvironment

open Foundation Foundation.Program

variable {C : Type}

def idle (destination : Option (Directory C)) : State C := ⟨destination, none, none, false, none⟩

def opened (fingerprint : String) (transactionObject fingerprintObject : ℕ)
    (destination : Option (Directory C)) (previous staging discarded : Option (Directory C))
    (backedUp candidate committed : Option ℕ) : State C :=
  ⟨destination,
    some ⟨transactionObject, some (fingerprint, fingerprintObject), previous, staging, discarded⟩,
    none, false,
    some ⟨.original, some ⟨.transaction, transactionObject⟩,
      some ⟨.fingerprint fingerprint, fingerprintObject⟩,
      backedUp.map (⟨.place .previous, ·⟩), candidate.map (⟨.place .staging, ·⟩),
      committed.map (⟨.place .destination, ·⟩), none⟩⟩

/-- The destination that recovery decides on, from the records and from what is where. -/
inductive Decides : (backedUp candidate committed : Option ℕ) →
    (destination previous discarded : Option (Directory C)) → Option (Directory C) → Prop
  | untouched (d x) : Decides none none none d none x d
  | absent (c x) : Decides none (some c) none none none x none
  | promoted (d) : Decides none (some (Directory.object d)) none (some d) none none none
  | committed (d x) :
      Decides none (some (Directory.object d)) (some d.object) (some d) none x (some d)
  | kept (d c x) : Decides (some (Directory.object d)) c none (some d) none x (some d)
  | moved (d c x) : Decides (some (Directory.object d)) c none none (some d) x (some d)
  | replaced (d d') :
      Decides (some (Directory.object d)) (some (Directory.object d')) none (some d') (some d)
        none (some d)
  | replacedCommitted (d d' x) :
      Decides (some (Directory.object d)) (some (Directory.object d')) (some d'.object) (some d')
        (some d) x (some d')

/-- The states from which recovery brings the destination to `goal`. -/
inductive Recoverable (fingerprint : String) (goal : Option (Directory C)) : State C → Prop
  | idle : Recoverable fingerprint goal (idle goal)
  | started : Recoverable fingerprint goal
      ⟨goal, none, none, false, some ⟨.creating, none, none, none, none, none, none⟩⟩
  | unbound (t : TransactionDirectory C) : Recoverable fingerprint goal
      ⟨goal, some t, none, false,
        some ⟨.original, some ⟨.transaction, t.object⟩, none, none, none, none, none⟩⟩
  | opened (t f destination previous staging discarded backedUp candidate committed) :
      Decides backedUp candidate committed destination previous discarded goal →
      Recoverable fingerprint goal (opened fingerprint t f destination previous staging discarded
        backedUp candidate committed)
  | detaching (t : TransactionDirectory C) (f p c k) : Recoverable fingerprint goal
      ⟨goal, some t, none, false,
        some ⟨.detaching, some ⟨.transaction, t.object⟩, f, p, c, k, none⟩⟩
  | detached (t : TransactionDirectory C) (l f p c k) (hl : l = .detaching ∨ l = .cleanup) :
      Recoverable fingerprint goal
        ⟨goal, none, some t, false, some ⟨l, some ⟨.transaction, t.object⟩, f, p, c, k, none⟩⟩
  | removed (i f p c k) : Recoverable fingerprint goal
      ⟨goal, none, none, false, some ⟨.cleanup, some i, f, p, c, k, none⟩⟩

section Cleanup

variable {fingerprint : String} {goal : Option (Directory C)}

def Cleans (fingerprint : String) (goal : Option (Directory C)) (p : Action C Unit)
    (s : State C) : Prop :=
  p.Meets (Recoverable fingerprint goal) (fun _ t => t = idle goal) (fun _ _ => False) s

theorem removeTree_cleans (t : TransactionDirectory C) (f p c k : Option Identity) :
    Cleans fingerprint goal (do removeTree; removeMarker)
      ⟨goal, none, some t, false, some ⟨.cleanup, some ⟨.transaction, t.object⟩, f, p, c, k, none⟩⟩
      := by
  have hdetached (u : TransactionDirectory C) (hu : u.object = t.object) :
      Recoverable fingerprint goal ⟨goal, none, some u, false,
        some ⟨.cleanup, some ⟨.transaction, t.object⟩, f, p, c, k, none⟩⟩ := by
    rw [← hu]
    exact .detached u .cleanup f p c k (.inr rfl)
  simp only [Cleans, removeTree, removeMarker, modify_bind, write_bind, meets_write,
    meets_modify]
  exact ⟨hdetached _ rfl, hdetached _ rfl, hdetached _ rfl, hdetached _ rfl, hdetached _ rfl,
    .removed _ f p c k, .idle, rfl⟩

theorem cleanup_original_meets {I : State C → Prop} (hI : ∀ u, Recoverable fingerprint goal u → I u)
    (t : TransactionDirectory C) (f p c k : Option Identity) {o : Option Owner}
    (h : I ⟨goal, some t, none, false, o⟩) :
    (cleanup ⟨.original, some ⟨.transaction, t.object⟩, f, p, c, k, none⟩).Meets I
      (fun _ u => u = idle goal) (fun _ _ => False) ⟨goal, some t, none, false, o⟩ := by
  have hcleans : Cleans fingerprint goal _ _ := removeTree_cleans t f p c k
  have hremove := Meets.mono hcleans hI (fun _ _ h => h) fun _ _ h => h
  have hdetaching : Recoverable fingerprint goal ⟨goal, some t, none, false,
      some ⟨.detaching, some ⟨.transaction, t.object⟩, f, p, c, k, none⟩⟩ :=
    .detaching t f p c k
  have hdetached : Recoverable fingerprint goal ⟨goal, none, some t, false,
      some ⟨.detaching, some ⟨.transaction, t.object⟩, f, p, c, k, none⟩⟩ :=
    .detached t .detaching f p c k (.inl rfl)
  simp [cleanup, acquireDirectory, transitionToCleanup, replaceMarker] at hremove ⊢
  exact ⟨h, hI _ hdetaching, hI _ hdetached, hremove⟩

theorem cleanup_original_cleans (t : TransactionDirectory C) {l : Location}
    (hl : l = .original ∨ l = .detaching) (f p c k : Option Identity)
    (h : Recoverable fingerprint goal ⟨goal, some t, none, false,
      some ⟨l, some ⟨.transaction, t.object⟩, f, p, c, k, none⟩⟩) :
    Cleans fingerprint goal (cleanup ⟨l, some ⟨.transaction, t.object⟩, f, p, c, k, none⟩)
      ⟨goal, some t, none, false, some ⟨l, some ⟨.transaction, t.object⟩, f, p, c, k, none⟩⟩ := by
  cases hl with
  | inl hl =>
    subst hl
    exact cleanup_original_meets (fun _ h => h) t f p c k h
  | inr hl =>
    subst hl
    have hremove : Cleans fingerprint goal _ _ := removeTree_cleans t f p c k
    have hdetached : Recoverable fingerprint goal ⟨goal, none, some t, false,
        some ⟨.detaching, some ⟨.transaction, t.object⟩, f, p, c, k, none⟩⟩ :=
      .detached t .detaching f p c k (.inl rfl)
    simp [Cleans, cleanup, acquireDirectory, transitionToCleanup, replaceMarker] at hremove ⊢
    exact ⟨h, hdetached, hremove⟩

theorem cleanup_detached_cleans (t : TransactionDirectory C) {l : Location}
    (hl : l = .detaching ∨ l = .cleanup) (f p c k : Option Identity) :
    Cleans fingerprint goal (cleanup ⟨l, some ⟨.transaction, t.object⟩, f, p, c, k, none⟩)
      ⟨goal, none, some t, false, some ⟨l, some ⟨.transaction, t.object⟩, f, p, c, k, none⟩⟩ := by
  have hremove : Cleans fingerprint goal _ _ := removeTree_cleans t f p c k
  have hdetached : Recoverable fingerprint goal ⟨goal, none, some t, false,
      some ⟨.detaching, some ⟨.transaction, t.object⟩, f, p, c, k, none⟩⟩ :=
    .detached t .detaching f p c k (.inl rfl)
  cases hl with
  | inl hl =>
    subst hl
    simp [Cleans, cleanup, acquireDirectory, transitionToCleanup, replaceMarker] at hremove ⊢
    exact ⟨hdetached, hremove⟩
  | inr hl =>
    subst hl
    simp [Cleans, cleanup, acquireDirectory, transitionToCleanup] at hremove ⊢
    exact hremove

theorem cleanupOwner_opened_cleans (t f : ℕ) (previous staging discarded : Option (Directory C))
    (backedUp candidate committed : Option ℕ)
    (h : Recoverable fingerprint goal (opened fingerprint t f goal previous staging discarded
      backedUp candidate committed)) :
    Cleans fingerprint goal cleanupOwner (opened fingerprint t f goal previous staging discarded
      backedUp candidate committed) := by
  have hcleanup : Cleans fingerprint goal _ _ := cleanup_original_cleans
    ⟨t, some (fingerprint, f), previous, staging, discarded⟩ (.inl rfl) _ _ _ _ h
  simp [Cleans, cleanupOwner, rejectTainted, ownsPath, opened] at hcleanup ⊢
  exact hcleanup

end Cleanup

section Recover

variable {fingerprint : String} {goal : Option (Directory C)}

/-- A fresh transaction of another run, or one whose cleanup was interrupted, is removed. -/
theorem recover_of_resume {s : State C} {owner : Owner} (hs : s.owner = some owner)
    (htainted : owner.tainted = none)
    (hresume : owner.location ≠ .original ∨
      owner.fingerprint = none ∧ owner.previous = none ∧ owner.candidate = none ∧
        owner.committed = none)
    (h : Cleans fingerprint goal (cleanup owner) s) : Cleans fingerprint goal (recover fingerprint) s
    := by
  have hopen : ¬ (owner.location = .original ∧ owner.fingerprint.isSome = true) := by
    rintro ⟨hlocation, hfingerprint⟩
    cases hresume with
    | inl hne => exact hne hlocation
    | inr hnone => simp [hnone.1] at hfingerprint
  have hlost : ¬ (owner.location = .original ∧ (owner.previous.isSome = true ∨
      owner.candidate.isSome = true ∨ owner.committed.isSome = true)) := by
    rintro ⟨hlocation, hrecords⟩
    cases hresume with
    | inl hne => exact hne hlocation
    | inr hnone => simp [hnone.2] at hrecords
  unfold Cleans at h ⊢
  simp only [recover, get_bind, meets_read, hs, resumeIncompleteOwnerCleanup, rejectTainted,
    htainted, pure_eq_done, done_bind, if_neg hopen, if_neg hlost]
  apply Meets.bind (Q := fun resumed u => resumed = true ∧ u = idle goal)
  · apply h.bind
    intro _ u hu
    rw [hu]
    exact ⟨.idle, rfl, rfl⟩
  · rintro resumed u ⟨rfl, rfl⟩
    exact ⟨.idle, rfl⟩

attribute [local simp] Cleans opened recover resumeIncompleteOwnerCleanup rejectTainted ownsPath
  fingerprintMatches recoverOwner ownedIdentity Owner.get identityMatchesPath moveOwnedDirectory
  State.parentExists State.find State.rename State.put

/-- Recovery of a transaction in its own place: which moves it makes follows from the records and
from what is where, and after each move they still decide for the same destination. -/
theorem recover_opened_cleans {t f : ℕ} {destination previous staging discarded} {backedUp
    candidate committed : Option ℕ}
    (h : Decides backedUp candidate committed destination previous discarded goal) :
    Cleans fingerprint goal (recover fingerprint) (opened fingerprint t f destination previous
      staging discarded backedUp candidate committed) := by
  have hopened {destination previous discarded backedUp candidate committed}
      (h : Decides backedUp candidate committed destination previous discarded goal) :
      Recoverable fingerprint goal (opened fingerprint t f destination previous staging discarded
        backedUp candidate committed) := .opened _ _ _ _ _ _ _ _ _ h
  have hcleanup {previous discarded backedUp candidate committed}
      (h : Decides backedUp candidate committed goal previous discarded goal) :
      Cleans fingerprint goal cleanupOwner (opened fingerprint t f goal previous staging discarded
        backedUp candidate committed) :=
    cleanupOwner_opened_cleans t f previous staging discarded _ _ _ (hopened h)
  cases h with
  | untouched => simpa using hcleanup (.untouched goal discarded)
  | absent c => simpa using hcleanup (.absent c discarded)
  | promoted d =>
    simpa using And.intro (hopened (.promoted d)) (hcleanup (.absent d.object (some d)))
  | committed d => simpa using hcleanup (.committed d discarded)
  | kept d =>
    cases candidate with
    | none => simpa using hcleanup (.kept d none discarded)
    | some c => simpa using hcleanup (.kept d (some c) discarded)
  | moved d =>
    cases candidate with
    | none =>
      simpa using And.intro (hopened (.moved d none discarded))
        (hcleanup (.kept d none discarded))
    | some c =>
      simpa using And.intro (hopened (.moved d (some c) discarded))
        (hcleanup (.kept d (some c) discarded))
  | replaced d d' =>
    have hmoved := hopened (.moved d (some d'.object) (some d'))
    have hkept := hcleanup (.kept d (some d'.object) (some d'))
    simpa using And.intro (hopened (.replaced d d')) (And.intro hmoved hkept)
  | replacedCommitted d d' => simpa using hcleanup (.replacedCommitted d d' discarded)

/-- Recovery brings the destination to its goal from every recoverable state, and may be killed
anywhere. -/
theorem recover_cleans {s : State C} (h : Recoverable fingerprint goal s) :
    Cleans fingerprint goal (recover fingerprint) s := by
  cases h with
  | idle =>
    simp [Cleans, recover, idle]
    exact .idle
  | started =>
    apply recover_of_resume rfl rfl (.inl (by simp))
    simp [Cleans, cleanup, acquireDirectory, removeMarker]
    exact ⟨.started, .idle, rfl⟩
  | unbound t =>
    apply recover_of_resume rfl rfl (.inr ⟨rfl, rfl, rfl, rfl⟩)
    exact cleanup_original_cleans t (.inl rfl) none none none none (.unbound t)
  | detaching t f p c k =>
    apply recover_of_resume rfl rfl (.inl (by simp))
    exact cleanup_original_cleans t (.inr rfl) f p c k (.detaching t f p c k)
  | detached t l f p c k hl =>
    apply recover_of_resume rfl rfl
    · cases hl with
      | inl h => exact .inl (by simp [h])
      | inr h => exact .inl (by simp [h])
    · exact cleanup_detached_cleans t hl f p c k
  | removed i f p c k =>
    apply recover_of_resume rfl rfl (.inl (by simp))
    simp [Cleans, cleanup, acquireDirectory, removeMarker]
    exact ⟨.removed i f p c k, .idle, rfl⟩
  | opened t f destination previous staging discarded backedUp candidate committed hdecides =>
    exact recover_opened_cleans hdecides

end Recover

end Protocyte.ManagedEnvironment
