import Protocyte.Foundation.Durable

/-! The transaction of a managed environment: its journal, its directories and the helper's
actions on them. -/
namespace Protocyte.ManagedEnvironment

open Foundation

/-- A directory: its device and inode, the stripped text of its `.protocyte-ready` where that is a
readable file, and the rest. -/
structure Directory (C : Type) where
  object : ℕ
  ready : Option String
  contents : C

/-- Where an environment can be. All but the destination lie in the transaction directory. -/
inductive Place where
  | destination
  | previous
  | staging
  | discarded
deriving DecidableEq, Repr

inductive Path where
  | place (place : Place)
  | transaction
  | cleanup
  | fingerprint (fingerprint : String)
deriving DecidableEq, Repr

/-- A recorded identity: the path it was recorded for and the file system object. -/
structure Identity where
  path : Path
  object : ℕ
deriving DecidableEq, Repr

structure TransactionDirectory (C : Type) where
  object : ℕ
  fingerprint : Option (String × ℕ)
  previous : Option (Directory C)
  staging : Option (Directory C)
  discarded : Option (Directory C)

inductive Location where
  | creating
  | original
  | detaching
  | cleanup
deriving DecidableEq, Repr

inductive Label where
  | fingerprint
  | previous
  | candidate
  | committed
  | tainted
deriving DecidableEq, Repr

/-- The latest journal of an owned sibling. -/
structure Owner where
  location : Location
  sibling : Option Identity
  fingerprint : Option Identity
  previous : Option Identity
  candidate : Option Identity
  committed : Option Identity
  tainted : Option Identity
deriving DecidableEq, Repr

/-- The marker with its journal, the transaction directory at its own path or at the cleanup path,
the staging directory of its creation, and the destination. -/
structure State (C : Type) where
  destination : Option (Directory C)
  original : Option (TransactionDirectory C)
  detached : Option (TransactionDirectory C)
  stage : Bool
  owner : Option Owner

structure OwnershipError where
  message : String
  path : Path
deriving DecidableEq, Repr

abbrev Action (C : Type) := Program OwnershipError (State C)

variable {C : Type}

def raise {α : Type} (message : String) (path : Path) : Action C α := .fail ⟨message, path⟩

def Owner.get (owner : Owner) : Label → Option Identity
  | .fingerprint => owner.fingerprint
  | .previous => owner.previous
  | .candidate => owner.candidate
  | .committed => owner.committed
  | .tainted => owner.tainted

def Owner.bind (owner : Owner) (label : Label) (identity : Identity) : Owner :=
  match label with
  | .fingerprint => { owner with fingerprint := some identity }
  | .previous => { owner with previous := some identity }
  | .candidate => { owner with candidate := some identity }
  | .committed => { owner with committed := some identity }
  | .tainted => { owner with tainted := some identity }

namespace State

def find (s : State C) : Place → Option (Directory C)
  | .destination => s.destination
  | .previous => s.original.bind TransactionDirectory.previous
  | .staging => s.original.bind TransactionDirectory.staging
  | .discarded => s.original.bind TransactionDirectory.discarded

def put (s : State C) (place : Place) (directory : Option (Directory C)) : State C :=
  match place with
  | .destination => { s with destination := directory }
  | .previous => { s with original := s.original.map fun t => { t with previous := directory } }
  | .staging => { s with original := s.original.map fun t => { t with staging := directory } }
  | .discarded => { s with original := s.original.map fun t => { t with discarded := directory } }

def parentExists (s : State C) : Place → Bool
  | .destination => true
  | _ => s.original.isSome

def rename (s : State C) (source target : Place) : State C :=
  (s.put source none).put target (s.find source)

def withOwner (s : State C) (f : Owner → Owner) : State C := { s with owner := s.owner.map f }

/-- The commit record is durable. -/
def committed (s : State C) : Bool := s.owner.any fun owner => owner.committed.isSome

end State

section Journal

def bindIdentity (label : Label) (path : Path) (object : ℕ) : Action C Unit :=
  .modify fun s => s.withOwner fun owner => owner.bind label ⟨path, object⟩

/-- `_replace_marker`: the journal becomes what the process holds. -/
def replaceMarker (owner : Owner) : Action C Unit :=
  .modify fun s => { s with owner := some owner }

/-- `_owned_identity`. -/
def ownedIdentity (owner : Owner) (label : Label) (path : Path) : Action C (Option Identity) :=
  match owner.get label with
  | none => pure none
  | some identity =>
    if identity.path = path then pure (some identity)
    else raise "managed-environment ownership record is invalid for" path

def markTainted (owner : Owner) : Action C Unit :=
  match owner.sibling with
  | none => raise "managed-environment transaction has no trusted identity" .transaction
  | some sibling => bindIdentity .tainted .transaction sibling.object

def rejectTainted (owner : Owner) : Action C Unit :=
  match owner.tainted with
  | none => pure ()
  | some _ =>
    raise ("managed-environment transaction encountered a namespace race and requires " ++
      "manual inspection") .transaction

/-- The directory at the transaction's own path is the recorded one. -/
def ownsPath (owner : Owner) (s : State C) : Bool :=
  match owner.sibling, s.original with
  | some sibling, some transaction =>
    sibling.path = .transaction ∧ transaction.object = sibling.object
  | _, _ => false

def fingerprintMatches (owner : Owner) (s : State C) (fingerprint : String) : Bool :=
  match owner.fingerprint, s.original with
  | some identity, some transaction =>
    identity.path = .fingerprint fingerprint ∧
      transaction.fingerprint = some (fingerprint, identity.object)
  | _, _ => false

def claimTransaction (fingerprint : String) : Action C Owner := do
  let s ← Program.get
  match s.owner with
  | none => raise "managed-environment transaction has no trusted owner" .transaction
  | some owner =>
    if ownsPath owner s then
      if fingerprintMatches owner s fingerprint then pure owner
      else raise "managed-environment transaction belongs to another installation" .transaction
    else raise "managed-environment transaction was replaced" .transaction

end Journal

section Moves

/-- `_move_owned_directory`. -/
def moveOwnedDirectory (source target : Place) (expected : Identity) (owner : Owner) :
    Action C Unit := do
  let s ← Program.get
  if !(s.parentExists source && s.parentExists target) then
    raise "no such directory" .transaction
  else
    match s.find source with
    | none => raise "no such directory" (.place source)
    | some directory =>
      if directory.object ≠ expected.object then
        raise "managed-environment source changed identity before mutation" (.place source)
      else if (s.find target).isSome then
        raise "managed-environment target is already occupied" (.place target)
      else do
        Program.modify fun s => s.rename source target
        let s ← Program.get
        if (s.find target).map Directory.object ≠ some expected.object then do
          markTainted owner
          raise "managed-environment target changed identity during mutation" (.place target)
        else if (s.find source).isSome then do
          markTainted owner
          raise "managed-environment source was replaced during mutation" (.place source)
        else pure ()

/-- `_ready_environment_identity`. -/
def readyEnvironmentIdentity (place : Place) (fingerprint : String) : Action C (Option ℕ) := do
  let s ← Program.get
  match s.find place with
  | none => raise "no such directory" (.place place)
  | some directory =>
    pure (if directory.ready = some fingerprint then some directory.object else none)

end Moves

section Cleanup

def unownedSiblingError (path : Path) : OwnershipError :=
  ⟨"refusing to remove an unowned, replaced, or linked transaction sibling at", path⟩

/-- `_acquire_directory`: whether the verified directory is at the cleanup path already, or `none`
when there is nothing left to remove. -/
def acquireDirectory (owner : Owner) (s : State C) : Except OwnershipError (Option Bool) :=
  match owner.sibling with
  | none =>
    if s.original.isSome ∨ s.detached.isSome ∨ s.stage then
      .error (unownedSiblingError .transaction)
    else .ok none
  | some expected =>
    let original := s.original.any fun transaction => transaction.object = expected.object
    let cleanup := s.detached.any fun transaction => transaction.object = expected.object
    if original && cleanup then .error (unownedSiblingError .transaction)
    else
      match owner.location with
      | .original =>
        if original && s.detached.isNone then .ok (some false)
        else .error (unownedSiblingError .transaction)
      | .detaching =>
        if cleanup then .ok (some true)
        else if original && s.detached.isNone then .ok (some false)
        else .error (unownedSiblingError .transaction)
      | .cleanup =>
        if cleanup then .ok (some true)
        else if s.detached.isNone && s.original.isNone then .ok none
        else .error (unownedSiblingError .transaction)
      | .creating =>
        if s.original.isNone && s.detached.isNone then .ok none
        else .error (unownedSiblingError .transaction)

def transitionToCleanup (owner : Owner) (atCleanup : Bool) : Action C Unit := do
  if atCleanup then
    if owner.location ≠ .cleanup then replaceMarker { owner with location := .cleanup }
    else pure ()
  else do
    if owner.location = .original then replaceMarker { owner with location := .detaching }
    else pure ()
    let s ← Program.get
    if s.detached.isSome then .fail (unownedSiblingError .cleanup)
    else do
      Program.modify fun s => { s with original := none, detached := s.original }
      replaceMarker { owner with location := .cleanup }

/-- The entries of the detached directory go one by one, the directory itself last. -/
def removeTree : Action C Unit := do
  Program.modify fun s =>
    { s with detached := s.detached.map fun t => { t with fingerprint := none } }
  Program.modify fun s => { s with detached := s.detached.map fun t => { t with previous := none } }
  Program.modify fun s => { s with detached := s.detached.map fun t => { t with staging := none } }
  Program.modify fun s =>
    { s with detached := s.detached.map fun t => { t with discarded := none } }
  Program.modify fun s => { s with detached := none }

/-- `close(remove_marker=True)`. -/
def removeMarker : Action C Unit := .modify fun s => { s with owner := none }

/-- `OwnedSibling.cleanup`. -/
def cleanup (owner : Owner) : Action C Unit := do
  let s ← Program.get
  match acquireDirectory owner s with
  | .error e => .fail e
  | .ok none => removeMarker
  | .ok (some atCleanup) => do
    transitionToCleanup owner atCleanup
    removeTree
    removeMarker

/-- `_cleanup_owner`, with the journal as it is now. -/
def cleanupOwner : Action C Unit := do
  let s ← Program.get
  match s.owner with
  | none => raise "managed-environment transaction has no trusted owner" .transaction
  | some owner => do
    rejectTainted owner
    if ownsPath owner s then cleanup owner
    else raise "managed-environment transaction was replaced before cleanup" .transaction

def resumeIncompleteOwnerCleanup (owner : Owner) : Action C Bool := do
  rejectTainted owner
  if owner.location = .original ∧ owner.fingerprint.isSome then pure false
  else if owner.location = .original ∧
      (owner.previous.isSome ∨ owner.candidate.isSome ∨ owner.committed.isSome) then
    raise "managed-environment transaction lost its fingerprint after filesystem changes"
      .transaction
  else do
    cleanup owner
    pure true

end Cleanup

section Creation

/-- Where making a transaction can raise: once its marker exists, in and after the making of its
directory, before and after its identity is recorded, and around the binding of its fingerprint. -/
inductive CreationPhase where
  | registered
  | staged
  | published
  | created
  | identified
  | recorded
  | named
  | binding
  | bound
deriving DecidableEq, Repr

/-- The errors the system calls of a creation raise. -/
abbrev Faults := CreationPhase → Option OwnershipError

def reach (faults : Faults) (phase : CreationPhase) : Action C Unit :=
  match faults phase with
  | none => pure ()
  | some e => .fail e

/-- The cleanup of a creation that has failed; a failure of its own is noted only. -/
def abandon (owner : Owner) : Action C Unit := (cleanup owner).attempt

/-- `_posix_create_owned_directory`: the directory is made in a staging directory and renamed, and
the staging directory goes in any case. -/
def createOwnedDirectory (faults : Faults) (object : ℕ) : Action C Unit := do
  Program.onFailure (do
    Program.modify fun s => { s with stage := true }
    reach faults .staged
    Program.modify fun s => { s with original := some ⟨object, none, none, none, none⟩ }
    reach faults .published) (Program.modify fun s => { s with stage := false })
  Program.modify fun s => { s with stage := false }
  reach faults .created

/-- The journal before the directory has an identity, and with it. -/
def creatingOwner : Owner := ⟨.creating, none, none, none, none, none, none⟩

def recordedOwner (object : ℕ) : Owner :=
  ⟨.original, some ⟨.transaction, object⟩, none, none, none, none, none⟩

/-- `create_owned_sibling` -/
def createOwnedSibling (faults : Faults) (object : ℕ) : Action C Unit := do
  Program.onFailure (do
    replaceMarker creatingOwner
    reach faults .registered) removeMarker
  Program.onFailure (createOwnedDirectory faults object) (abandon creatingOwner)
  Program.onFailure (do
    reach faults .identified
    replaceMarker (recordedOwner object)) (abandon (recordedOwner object))

/-- `_new_transaction` -/
def create (fingerprint : String) (transactionObject fingerprintObject : ℕ) (faults : Faults) :
    Action C Unit := do
  createOwnedSibling faults transactionObject
  Program.onFailure (do
    reach faults .recorded
    Program.modify fun s =>
      { s with
        original := s.original.map fun t =>
          { t with fingerprint := some (fingerprint, fingerprintObject) } }
    reach faults .named) (abandon (recordedOwner transactionObject))
  let identity : Identity := ⟨.fingerprint fingerprint, fingerprintObject⟩
  Program.onFailure (do
    reach faults .binding
    bindIdentity .fingerprint identity.path identity.object
    reach faults .bound)
    (abandon { recordedOwner transactionObject with fingerprint := some identity })

end Creation

section Helper

def backup (fingerprint : String) : Action C Unit := do
  let owner ← claimTransaction fingerprint
  rejectTainted owner
  match ← readyEnvironmentIdentity .destination fingerprint with
  | none =>
    raise "refusing to retire a managed Python environment without a matching ready marker"
      (.place .destination)
  | some object => do
    bindIdentity .previous (.place .previous) object
    moveOwnedDirectory .destination .previous ⟨.place .previous, object⟩ owner

def prepareCandidate (fingerprint : String) : Action C Unit := do
  let owner ← claimTransaction fingerprint
  rejectTainted owner
  match ← readyEnvironmentIdentity .staging fingerprint with
  | none => raise "managed-environment staging directory is not ready" (.place .staging)
  | some object => bindIdentity .candidate (.place .staging) object

def promote (fingerprint : String) : Action C Unit := do
  let owner ← claimTransaction fingerprint
  rejectTainted owner
  match ← ownedIdentity owner .candidate (.place .staging) with
  | none => raise "managed-environment transaction has no prepared replacement" .transaction
  | some candidate => moveOwnedDirectory .staging .destination candidate owner

def commit (fingerprint : String) : Action C Unit := do
  let owner ← claimTransaction fingerprint
  rejectTainted owner
  match ← readyEnvironmentIdentity .destination fingerprint with
  | none =>
    raise "refusing to commit a managed Python environment without a ready marker"
      (.place .destination)
  | some observed =>
    match ← ownedIdentity owner .candidate (.place .staging) with
    | none => raise "managed-environment transaction has no promoted replacement" .transaction
    | some candidate =>
      if candidate.object = observed then
        bindIdentity .committed (.place .destination) observed
      else
        raise "refusing to commit a replaced managed Python environment" (.place .destination)

def restore (fingerprint : String) : Action C Unit := do
  let owner ← claimTransaction fingerprint
  rejectTainted owner
  let candidate ← ownedIdentity owner .candidate (.place .staging)
  let s ← Program.get
  if s.destination.isSome then
    match candidate with
    | none =>
      raise "refusing to restore over an unverified managed Python environment"
        (.place .destination)
    | some candidate => moveOwnedDirectory .destination .discarded candidate owner
  else pure ()
  match ← ownedIdentity owner .previous (.place .previous) with
  | none => pure ()
  | some previous => moveOwnedDirectory .previous .destination previous owner
  cleanupOwner

/-- The `cleanup` action of the helper. -/
def cleanupTransaction (fingerprint : String) : Action C Unit := do
  let _ ← claimTransaction fingerprint
  cleanupOwner

def identityMatchesPath (expected : Identity) (directory : Option (Directory C)) : Bool :=
  directory.any fun directory => directory.object = expected.object

def changedIdentity : Action C Unit :=
  raise "managed-environment committed replacement changed identity" (.place .destination)

def liveMismatch : Action C Unit :=
  raise ("refusing recovery because the live managed Python environment does not match its " ++
    "transaction") (.place .destination)

def recoverOwner (owner : Owner) : Action C Unit := do
  rejectTainted owner
  let previous ← ownedIdentity owner .previous (.place .previous)
  let candidate ← ownedIdentity owner .candidate (.place .staging)
  let committed ← ownedIdentity owner .committed (.place .destination)
  let s ← Program.get
  match previous with
  | none => do
    match candidate with
    | none => pure ()
    | some candidate =>
      if s.destination.isSome then
        match committed with
        | none => moveOwnedDirectory .destination .discarded candidate owner
        | some committed =>
          if identityMatchesPath committed s.destination then pure () else changedIdentity
      else pure ()
    cleanupOwner
  | some previous => do
    if (s.find .previous).isSome then
      if s.destination.isNone then moveOwnedDirectory .previous .destination previous owner
      else
        match candidate with
        | none =>
          liveMismatch
        | some candidate =>
          if identityMatchesPath candidate s.destination then
            match committed with
            | none => do
              moveOwnedDirectory .destination .discarded candidate owner
              moveOwnedDirectory .previous .destination previous owner
            | some committed =>
              if identityMatchesPath committed s.destination then pure () else changedIdentity
          else
            liveMismatch
    else if identityMatchesPath previous s.destination then pure ()
    else
      raise "managed-environment backup disappeared or changed identity" (.place .previous)
    cleanupOwner

def recover (fingerprint : String) : Action C Unit := do
  let s ← Program.get
  match s.owner with
  | none => pure ()
  | some owner =>
    if ← resumeIncompleteOwnerCleanup owner then pure ()
    else if !ownsPath owner s then
      raise "managed-environment transaction was replaced" .transaction
    else if !fingerprintMatches owner s fingerprint then
      raise "managed-environment transaction belongs to another installation" .transaction
    else recoverOwner owner

end Helper

end Protocyte.ManagedEnvironment
