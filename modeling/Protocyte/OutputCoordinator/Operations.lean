import Protocyte.OutputCoordinator.Transaction

/-! What the coordinator does to one claimed root: publication, retirement, reconciliation and
reset. -/
namespace Protocyte.OutputCoordinator

open Foundation

variable {Name : Type} [DecidableEq Name] {v : Volume Name}

section Publication

/-- The entries of a transaction in the making, and those of the snapshot it leads to. -/
structure Staged (Name : Type) where
  entries : List (PendingEntry Name)
  newEntries : Entries Name

/-- The entries without an output's former spelling, and with its new bytes. -/
def Staged.publish (acc : Staged Name) (previous : Option (List Name × Entry)) (target : Target)
    (index : ℕ) (relative : List Name) (after : Digest) : Staged Name where
  entries := acc.entries ++ [{
    after := some after
    before := previous.map fun found => found.2.sha256
    path := relative
    payload := some index
    target
    transfer := none }]
  newEntries :=
    let kept := match previous with
      | none => acc.newEntries
      | some (path, _) => if path = relative then acc.newEntries else acc.newEntries.pop path
    kept.set relative ⟨after, target⟩

def stageOutput (target : Target) (staged : Tree v) (committed : Entries Name) (id : Token)
    (index : ℕ) (relative : List Name) (acc : Staged Name) : Action v (Staged Name) := do
  let s ← .get
  .lift (s.outputs.outputPath relative)
  .lift (staged.outputPath (v.stagedName :: relative))
  match staged.find (v.stagedName :: relative) with
  | some (.file _ after) => do
    let previous ← .lift (snapshotEntryForPath s.outputs committed relative)
    .lift (requireObservedState s.outputs relative (previous.map fun found => found.2.sha256) true)
    updateTransaction id fun t => { t with payloads := t.payloads.set index after }
    pure (acc.publish previous target index relative after)
  | _ => .fail "staged generation output is missing or unsafe"

def stageOutputs (target : Target) (staged : Tree v) (committed : Entries Name) (id : Token) :
    ℕ → List (List Name) → Staged Name → Action v (Staged Name)
  | _, [], acc => pure acc
  | index, relative :: rest, acc => do
    let acc ← stageOutput target staged committed id index relative acc
    stageOutputs target staged committed id (index + 1) rest acc

def beginTransaction (id : Token) : Action v Unit :=
  .modify fun s => { s with
    transactions := s.transactions ++ [{ id, payloads := .empty, pending := none }] }

def commitPending (pending : Pending v) : Action v Unit :=
  updateTransaction pending.id fun t => { t with pending := some pending }

def runPending (plan : Plan v) (claim : Claim Name) (pending : Pending v) : Action v Unit := do
  commitPending pending
  applyPending plan claim pending pending.id

/-- A failed publication removes its directory unless the transaction is pending. -/
def discardTransaction (id : Token) : Action v Unit := do
  let s ← .get
  match (s.transactions.find? fun t => t.id = id).bind Transaction.pending with
  | none => removeTransaction id
  | some _ => pure ()

def Staged.pending (staged : Staged Name) (plan : Plan v) (claim : Claim Name)
    (snapshot : Snapshot Name) (id : Token) : Pending v where
  baseGeneration := snapshot.generation
  entries := staged.entries
  id
  newSnapshot :=
    { claimToken := claim.token
      entries := staged.newEntries.sorted v.posixLe
      generation := snapshot.generation + 1 }
  plan

def Plan.targetOutputs (plan : Plan v) (target : Target) : List (List Name) :=
  (plan.outputs.filter fun o => o.target = target).map PlanOutput.relative

def publishOutputs (plan : Plan v) (claim : Claim Name) (snapshot : Snapshot Name)
    (target : Target) (staged : Tree v) (id : Token) : Action v (Staged Name) := do
  beginTransaction id
  let work : Action v (Staged Name) := do
    let acc ← stageOutputs target staged snapshot.entries id 0 (plan.targetOutputs target)
      ⟨[], snapshot.entries⟩
    runPending plan claim (acc.pending plan claim snapshot id)
    pure acc
  work.onFailure (discardTransaction id)

/-- The check that the output has the bytes it was given. -/
def requirePublished (newEntries : Entries Name) (relative : List Name) : Action v Unit := do
  let s ← .get
  .lift (s.outputs.outputPath relative)
  .lift (requireObservedState s.outputs relative
    ((newEntries.get? relative).map Entry.sha256) false)

variable (same : List Name → List Name → Bool)

def publish (plan : Plan v) (target : Target) (stagingRoot : List Name) (id : Token) :
    Action v Unit := do
  let claim ← loadClaim same plan
  recover same claim
  requireCurrentPlan same plan claim
  match plan.stagingForTarget target with
  | none => .fail "output plan contains no metadata for target"
  | some staging => do
    .ensure (stagingRoot = staging ++ [v.stagedName])
      "publish staging root does not match the configured target metadata"
    let snapshot ← loadSnapshot claim
    .ensure (plan.targetOutputs target ≠ []) "output plan contains no outputs for target"
    let s ← .get
    let staged := (s.staging.get? staging).getD .empty
    let acc ← publishOutputs plan claim snapshot target staged id
    (plan.targetOutputs target).forM (requirePublished acc.newEntries)

def validate (plan : Plan v) : Action v Unit := do
  let claim ← loadClaim same plan
  recover same claim
  requireCurrentPlan same plan claim

end Publication

section Retirement

def desiredByIdentity (plan : Plan v) (t : Tree v) (identity : ℕ × ℕ) : List (List Name) :=
  (plan.outputs.map PlanOutput.relative).filter fun p => existingFileIdentity t p = some identity

/-- The transaction of a retirement, and the outputs that took over retired files. -/
structure Retired (Name : Type) where
  staged : Staged Name
  claimed : List (List Name)

def transferTo (plan : Plan v) (t : Tree v) (committed : Entries Name) (claimed : List (List Name))
    (identity : ℕ × ℕ) : Except String (Option (Transfer Name)) :=
  match (desiredByIdentity plan t identity).filter fun p => !committed.keys.contains p with
  | [] => .ok none
  | [destination] => .ok (if claimed.contains destination then none else some ⟨identity, destination⟩)
  | _ => .error "retired generated output has multiple desired hard-link destinations"

def Retired.retire (acc : Retired Name) (plan : Plan v) (relative : List Name) (entry : Entry)
    (transfer : Option (Transfer Name)) : Retired Name :=
  let target := (transfer.bind fun t => plan.plannedTarget t.path).getD entry.target
  let kept := acc.staged.newEntries.pop relative
  { staged := {
      entries := acc.staged.entries ++ [{
        after := none
        before := some entry.sha256
        path := relative
        payload := none
        target
        transfer }]
      newEntries := match transfer with
        | none => kept
        | some t => kept.set t.path ⟨entry.sha256, target⟩ }
    claimed := acc.claimed ++ (transfer.map Transfer.path).toList }

/-- A path that folds like a planned one may be another spelling of it. -/
def aliasesPlanned (plan : Plan v) (t : Tree v) (relative : List Name) : Except String Bool :=
  match plan.plannedByPortable relative with
  | none => .ok false
  | some planned => t.caseSpellingAlias relative planned

/-- One turn of the loop of `_retire_unplanned`: outputs changed by others are kept. -/
def retireEntry (plan : Plan v) (t : Tree v) (committed : Entries Name) (acc : Retired Name)
    (relative : List Name) (entry : Entry) : Except String (Retired Name) := do
  if (plan.outputs.map PlanOutput.relative).contains relative then .ok acc
  else
    let aliased ← aliasesPlanned plan t relative
    if aliased then .ok acc
    else
      t.outputPath relative
      match t.find relative with
      | none => .ok (acc.retire plan relative entry none)
      | some (.file identity sha256) =>
        if sha256 ≠ entry.sha256 then .ok acc
        else
          let transfer ← transferTo plan t committed acc.claimed identity
          .ok (acc.retire plan relative entry transfer)
      | some _ => .ok acc

def retireEntries (plan : Plan v) (t : Tree v) (committed : Entries Name) (acc : Retired Name) :
    List (List Name × Entry) → Except String (Retired Name)
  | [] => .ok acc
  | (relative, entry) :: rest => do
    let acc ← retireEntry plan t committed acc relative entry
    retireEntries plan t committed acc rest

def retireUnplanned (plan : Plan v) (claim : Claim Name) (snapshot : Snapshot Name) (id : Token) :
    Action v Unit := do
  let s ← .get
  (plan.outputs.map PlanOutput.relative).forM fun p => .lift (s.outputs.outputPath p)
  let acc ← .lift (retireEntries plan s.outputs snapshot.entries
    ⟨⟨[], snapshot.entries⟩, []⟩ snapshot.entries.items)
  match acc.staged.entries with
  | [] => pure ()
  | _ => do
    beginTransaction id
    runPending plan claim (acc.staged.pending plan claim snapshot id)

def retireStaging (previous : Option (Plan v)) (current : Plan v) : Action v Unit :=
  match previous with
  | none => pure ()
  | some previous => (previous.targets.filter fun t =>
      t.identity ∉ current.targets.map PlanTarget.identity).forM fun t =>
    .modify fun s => { s with staging := s.staging.pop t.staging }

variable (same : List Name → List Name → Bool)

/-- `_initialize_claim_locked`: the claim comes last. -/
def initializeClaim (plan : Plan v) (token : Token) : Action v Unit := do
  .modify fun s => { s with
    snapshot := some { claimToken := token, entries := .empty, generation := 0 } }
  .modify fun s => { s with claim := some ⟨plan.root, plan.buildRoot, token⟩ }

def reconcileLocked (plan : Plan v) (id : Token) : Action v Token := do
  let claim ← loadClaim same plan
  recover same claim
  let previous ← loadRecordedPlan same claim
  let snapshot ← loadSnapshot claim
  retireUnplanned plan claim snapshot id
  retireStaging previous plan
  .modify fun s => { s with plan := some plan }
  pure claim.token

/-- `reconcile`; `token` is that of a new claim. -/
def reconcile (plan : Plan v) (token id : Token) : Action v Token := do
  let s ← .get
  if s.claim.isSome then do
    let claim ← loadClaim same plan
    recover same claim
    let _ ← loadSnapshot claim
    let _ ← loadRecordedPlan same claim
  else initializeClaim plan token
  reconcileLocked same plan id

end Retirement

section Reset

def isSnapshotAncestor (t : Tree v) (entries : Entries Name) (relative : List Name) : Bool :=
  entries.keys.any fun recorded =>
    relative.length < recorded.length ∧ t.find (recorded.take relative.length) = some .directory ∧
      t.samefile relative (recorded.take relative.length)

def validateResetEntries (t : Tree v) : List (List Name × Entry) → Except String Unit
  | [] => .ok ()
  | (relative, entry) :: rest => do
    t.outputPath relative
    requireObservedState t relative (some entry.sha256) true
    validateResetEntries t rest

/-- A file that looks generated is a recorded output. -/
def validateResetNode (t : Tree v) (entries : Entries Name) (relative : List Name) (node : Node) :
    Except String Unit := do
  if v.generated (v.fold relative) = true then
    match node with
    | .special => .error "reset found an unowned generated-looking output"
    | .directory =>
      require (isSnapshotAncestor t entries relative = true)
        "reset found an unowned generated-looking output"
    | .file _ _ => do
      let known ← snapshotEntryForPath t entries relative
      require (known.isSome = true) "reset found an unowned generated-looking output"
  else .ok ()

def validateResetNodes (t : Tree v) (entries : Entries Name) :
    List (List Name × Node) → Except String Unit
  | [] => .ok ()
  | (relative, node) :: rest => do
    validateResetNode t entries relative node
    validateResetNodes t entries rest

def validateResetInventory (t : Tree v) (entries : Entries Name) : Except String Unit := do
  validateResetEntries t entries.items
  validateResetNodes t entries t.nodes.items

/-- `_load_reset_intent`: the entries and directories are those that are recorded now. -/
def loadResetIntent (claim : Claim Name) (entries : Entries Name)
    (staging : List (PlanTarget Name)) (intent : Intent Name) : Action v Unit := do
  .ensure (intent.claimToken = claim.token) "pending output reset is malformed"
  .ensure (intent.entries.Same entries ∧ intent.staging = staging)
    "pending output reset does not match committed claim state"

def releaseClaim : Action v Unit := do
  let s ← .get
  (s.transactions.map Transaction.id).forM removeTransaction
  .modify fun s => { s with claim := none }
  .modify fun s => { s with plan := none }
  .modify fun s => { s with snapshot := none }
  .modify fun s => { s with reset := none }

def resetOutput (relative : List Name) (entry : Entry) : Action v Unit := do
  let s ← .get
  .lift (s.outputs.outputPath relative)
  deleteIfState relative (some entry.sha256)

/-- The outputs of an intent go, then the staging directories and the claim. -/
def finishReset (intent : Intent Name) : Action v Unit := do
  intent.entries.items.forM fun item => resetOutput item.1 item.2
  intent.staging.forM fun t => .modify fun s => { s with staging := s.staging.pop t.staging }
  releaseClaim

variable (same : List Name → List Name → Bool)

def recoverUnlessReset (claim : Claim Name) : Action v Unit := do
  let s ← .get
  if s.reset.isNone then recover same claim else pure ()

/-- A reset that was interrupted goes on with what it wrote down. -/
def reset (plan : Plan v) (expectedToken : Token) : Action v Unit := do
  let claim ← loadClaim same plan
  .ensure (claim.token = expectedToken) "reset claim token does not match the live immutable claim"
  recoverUnlessReset same claim
  let snapshot ← loadSnapshot claim
  let recorded ← loadRecordedPlan same claim
  let staging := (recorded.map Plan.targets).getD []
  let s ← .get
  match s.reset with
  | some intent => do
    loadResetIntent claim snapshot.entries staging intent
    finishReset intent
  | none => do
    .lift (validateResetInventory s.outputs snapshot.entries)
    let intent : Intent Name := ⟨claim.token, snapshot.entries, staging⟩
    .modify fun s => { s with reset := some intent }
    finishReset intent

end Reset

end Protocyte.OutputCoordinator
